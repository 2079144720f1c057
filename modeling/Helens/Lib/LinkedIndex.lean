import Mathlib.Data.List.AList
import Mathlib.Data.List.Perm.Basic

/-! Linked lists with an index. The cells of a list have names, which iterators hold; an index finds
the cell of a key. Caches keep such a list in the order of use. -/

namespace Lib.LinkedIndex

open List

/-! ## Lists -/

structure LinkedList (α : Type) where
  cells : List (Nat × α)
  fresh : Nat
  nodup : (cells.map Prod.fst).Nodup
  old : ∀ c ∈ cells, c.1 < fresh

namespace LinkedList

variable {α : Type}

def empty : LinkedList α := ⟨[], 0, nodup_nil, nofun⟩

def clear (l : LinkedList α) : LinkedList α := ⟨[], l.fresh, nodup_nil, nofun⟩

def values (l : LinkedList α) : List α := l.cells.map Prod.snd

def get? (l : LinkedList α) (it : Nat) : Option α :=
  (l.cells.find? fun c => c.1 == it).map Prod.snd

variable {l : LinkedList α} {it : Nat}

theorem get?_eq_some_iff {a : α} :
    l.get? it = some a ↔ (it, a) ∈ l.cells := by
  obtain ⟨cells, fresh, hnodup, hold⟩ := l
  unfold get?
  dsimp only
  clear hold
  induction cells with
  | nil => simp
  | cons c cells ih =>
    obtain ⟨hnot, hrest⟩ := nodup_cons.mp hnodup
    obtain ⟨name, b⟩ := c
    by_cases hname : name = it
    · subst hname
      have habsent : (name, a) ∉ cells := fun h => hnot (mem_map.mpr ⟨_, h, rfl⟩)
      simp [habsent, eq_comm]
    · have hne : it ≠ name := fun h => hname h.symm
      simp only [find?_cons, beq_eq_false_iff_ne.mpr hname, ih hrest, mem_cons,
        Prod.mk.injEq, hne, false_and, false_or]

theorem cell_unique {a b : α} (ha : (it, a) ∈ l.cells)
    (hb : (it, b) ∈ l.cells) : a = b := by
  have hsome := get?_eq_some_iff.mpr ha
  rw [get?_eq_some_iff.mpr hb] at hsome
  exact (Option.some.inj hsome).symm

theorem get?_congr {l' : LinkedList α} (h : ∀ a, (it, a) ∈ l'.cells ↔ (it, a) ∈ l.cells) :
    l'.get? it = l.get? it := by
  refine Option.ext fun a => ?_
  rw [get?_eq_some_iff, get?_eq_some_iff]
  exact h a

def pushFront (l : LinkedList α) (a : α) : LinkedList α where
  cells := (l.fresh, a) :: l.cells
  fresh := l.fresh + 1
  nodup := by
    refine nodup_cons.mpr ⟨?_, l.nodup⟩
    intro h
    obtain ⟨c, hc, hname⟩ := mem_map.mp h
    exact absurd (l.old c hc) (by omega)
  old := by
    intro c hc
    rcases mem_cons.mp hc with rfl | hc
    · exact Nat.lt_succ_self _
    · exact Nat.lt_succ_of_lt (l.old c hc)

def remove (l : LinkedList α) (it : Nat) : LinkedList α where
  cells := l.cells.filter fun c => c.1 != it
  fresh := l.fresh
  nodup := l.nodup.sublist (filter_sublist.map _)
  old := fun c hc => l.old c (mem_of_mem_filter hc)

theorem mem_remove :
    c ∈ (l.remove it).cells ↔ c ∈ l.cells ∧ c.1 ≠ it := by
  simp [remove]

/-- `erase`, which asks for a good iterator. -/
def erase (l : LinkedList α) (it : Nat) : Option (LinkedList α) :=
  (l.get? it).map fun _ => l.remove it

def splice (l : LinkedList α) (it : Nat) : Option (LinkedList α) :=
  match h : l.get? it with
  | none => none
  | some a => some {
      cells := (it, a) :: (l.remove it).cells
      fresh := l.fresh
      nodup := by
        refine nodup_cons.mpr ⟨?_, (l.remove it).nodup⟩
        intro hmem
        obtain ⟨c, hc, hname⟩ := mem_map.mp hmem
        exact (mem_remove.mp hc).2 hname
      old := by
        intro c hc
        rcases mem_cons.mp hc with rfl | hc
        · exact l.old _ (get?_eq_some_iff.mp h)
        · exact (l.remove it).old c hc }

def modify (l : LinkedList α) (it : Nat) (f : α → α) : Option (LinkedList α) :=
  (l.get? it).map fun _ => {
    cells := l.cells.map fun c => if c.1 = it then (c.1, f c.2) else c
    fresh := l.fresh
    nodup := by
      rw [map_map]
      have hnames : (Prod.fst ∘ fun c : Nat × α => if c.1 = it then (c.1, f c.2) else c) =
          Prod.fst := by
        funext c
        dsimp only [Function.comp_apply]
        split <;> rfl
      rw [hnames]
      exact l.nodup
    old := by
      intro c hc
      obtain ⟨d, hd, rfl⟩ := mem_map.mp hc
      have hlt := l.old d hd
      split <;> exact hlt }

def popBack (l : LinkedList α) : Option ((Nat × α) × LinkedList α) :=
  l.cells.getLast?.map fun c => (c, {
    cells := l.cells.dropLast
    fresh := l.fresh
    nodup := l.nodup.sublist ((dropLast_sublist _).map _)
    old := fun c hc => l.old c ((dropLast_sublist _).subset hc) })

section Specs

variable {l : LinkedList α} {it : Nat} {a : α}

theorem erase_eq (h : l.get? it = some a) : l.erase it = some (l.remove it) := by
  simp [erase, h]

theorem splice_eq (h : l.get? it = some a) :
    ∃ l', l.splice it = some l' ∧ l'.cells = (it, a) :: (l.remove it).cells := by
  unfold splice
  split
  · next hnone => simp [hnone] at h
  · next b hb =>
    obtain rfl : b = a := Option.some.inj (hb.symm.trans h)
    exact ⟨_, rfl, rfl⟩

theorem modify_eq (f : α → α) (h : l.get? it = some a) : ∃ l', l.modify it f = some l' ∧
      l'.cells = l.cells.map fun c => if c.1 = it then (c.1, f c.2) else c := by
  simp [modify, h]

theorem modify_splice_eq (f : α → α) (h : l.get? it = some a) :
    ∃ m l', l.modify it f = some m ∧ m.get? it = some (f a) ∧ m.splice it = some l' ∧
      l'.cells = (it, f a) :: (l.remove it).cells := by
  obtain ⟨m, hm, hcells⟩ := modify_eq f h
  have hcell : m.get? it = some (f a) := by
    rw [get?_eq_some_iff, hcells]
    exact mem_map.mpr ⟨(it, a), get?_eq_some_iff.mp h, by simp⟩
  obtain ⟨l', hl', hcells'⟩ := splice_eq hcell
  have hothers : (m.remove it).cells = (l.remove it).cells := by
    simp only [remove, hcells, filter_map]
    rw [filter_congr (q := fun c => c.1 != it)]
    · refine map_congr_left (fun c hc => ?_) |>.trans (map_id _)
      have hne : c.1 ≠ it := by simpa using of_mem_filter hc
      simp [hne]
    · intro c _
      by_cases hc : c.1 = it <;> simp [hc]
  exact ⟨m, l', hm, hcell, hl', by rw [hcells', hothers]⟩

theorem mem_popBack {l' : LinkedList α} (hcells : l.cells = l'.cells ++ [c])
    (d) : d ∈ l'.cells ↔ d ∈ l.cells ∧ d.1 ≠ c.1 := by
  have hnodup := l.nodup
  rw [hcells, map_append, nodup_append] at hnodup
  have hne : d ∈ l'.cells → d.1 ≠ c.1 := fun hd =>
    hnodup.2.2 d.1 (mem_map_of_mem hd) c.1 (by simp)
  rw [hcells, mem_append, mem_singleton]
  constructor
  · intro hd
    exact ⟨.inl hd, hne hd⟩
  · rintro ⟨hd | rfl, hname⟩
    · exact hd
    · exact absurd rfl hname

theorem popBack_eq (hn : l.cells.length = n + 1) :
    ∃ c l', l.popBack = some (c, l') ∧ l.cells = l'.cells ++ [c] ∧
      l.values = l'.values ++ [c.2] ∧ l'.cells.length = n := by
  have hne : l.cells ≠ [] := ne_nil_of_length_eq_add_one hn
  have hcells := (dropLast_append_getLast hne).symm
  unfold popBack
  rw [getLast?_eq_some_getLast hne]
  refine ⟨_, _, rfl, hcells, ?_, ?_⟩
  · exact (congrArg (map Prod.snd) hcells).trans map_append
  · rw [length_dropLast, hn]
    rfl

end Specs

end LinkedList

/-! ## The index -/

section Index

variable {α K : Type} [DecidableEq K] {key : α → K} {index : AList fun _ : K => Nat}
  {l l' : LinkedList α} {it : Nat} {a : α}

/-- The index holds, for every key, the iterator to the cell with this key. -/
def Indexes (key : α → K) (index : AList fun _ : K => Nat) (l : LinkedList α) : Prop :=
  ∀ k it, index.lookup k = some it ↔ ∃ a, (it, a) ∈ l.cells ∧ key a = k

theorem indexes_nil (hl : l.cells = []) : Indexes key ∅ l := by
  intro k it
  simp [hl]

theorem Indexes.get? {k : K} (h : Indexes key index l) (hk : index.lookup k = some it) :
    ∃ a, l.get? it = some a ∧ key a = k := by
  obtain ⟨a, ha, hkey⟩ := (h k it).mp hk
  exact ⟨a, LinkedList.get?_eq_some_iff.mpr ha, hkey⟩

theorem Indexes.name_eq (h : Indexes key index l) (hc : c ∈ l.cells)
    (hd : d ∈ l.cells) (hkey : key c.2 = key d.2) : c.1 = d.1 := by
  have hcd := (h (key d.2) c.1).mpr ⟨c.2, hc, hkey⟩
  rw [(h (key d.2) d.1).mpr ⟨d.2, hd, rfl⟩] at hcd
  exact (Option.some.inj hcd).symm

theorem Indexes.nodup (h : Indexes key index l) : (l.values.map key).Nodup := by
  have hnames : l.cells.Pairwise fun c d => c.1 ≠ d.1 := pairwise_map.mp l.nodup
  unfold LinkedList.values
  rw [map_map]
  refine pairwise_map.mpr (List.Pairwise.imp_of_mem ?_ hnames)
  intro c d hc hd hne hkey
  exact hne (h.name_eq hc hd hkey)

theorem Indexes.mem_iff (h : Indexes key index l) {k : K} : k ∈ index ↔ k ∈ l.values.map key := by
  rw [← AList.lookup_isSome, Option.isSome_iff_exists]
  simp only [h k, LinkedList.values, map_map, mem_map, Function.comp_apply, Prod.exists]

theorem Indexes.length_eq (h : Indexes key index l) : index.entries.length = l.values.length := by
  have hperm : List.Perm index.keys (l.values.map key) :=
    (perm_ext_iff_of_nodup index.keys_nodup h.nodup).mpr fun k => h.mem_iff
  simpa [AList.keys, keys] using hperm.length_eq

theorem Indexes.pushFront (h : Indexes key index l) (hk : index.lookup (key a) = none) :
    Indexes key (index.insert (key a) l.fresh) (l.pushFront a) := by
  intro k it
  by_cases hkey : k = key a
  · subst hkey
    have hfree : ∀ b, (it, b) ∈ l.cells → key b ≠ key a := by
      intro b hb hsame
      rw [(h (key a) it).mpr ⟨b, hb, hsame⟩] at hk
      cases hk
    rw [AList.lookup_insert, Option.some_inj]
    simp only [LinkedList.pushFront, mem_cons, Prod.mk.injEq]
    constructor
    · rintro rfl
      exact ⟨a, .inl ⟨rfl, rfl⟩, rfl⟩
    · rintro ⟨b, ⟨rfl, -⟩ | hb, hsame⟩
      · rfl
      · exact absurd hsame (hfree b hb)
  · rw [AList.lookup_insert_ne hkey, h k it]
    simp only [LinkedList.pushFront, mem_cons, Prod.mk.injEq]
    constructor
    · rintro ⟨b, hb, hb'⟩
      exact ⟨b, .inr hb, hb'⟩
    · rintro ⟨b, ⟨-, rfl⟩ | hb, hb'⟩
      · exact absurd hb'.symm hkey
      · exact ⟨b, hb, hb'⟩

theorem Indexes.splice (h : Indexes key index l) (hit : (it, a) ∈ l.cells)
    (hkey : key b = key a) (hcells : l'.cells = (it, b) :: (l.remove it).cells) :
    Indexes key index l' := by
  intro k name
  rw [h k name]
  simp only [hcells, mem_cons, Prod.mk.injEq, LinkedList.mem_remove]
  constructor
  · rintro ⟨c, hc, rfl⟩
    by_cases hname : name = it
    · subst hname
      obtain rfl := LinkedList.cell_unique hc hit
      exact ⟨b, .inl ⟨rfl, rfl⟩, hkey⟩
    · exact ⟨c, .inr ⟨hc, hname⟩, rfl⟩
  · rintro ⟨c, ⟨rfl, rfl⟩ | ⟨hc, -⟩, rfl⟩
    · exact ⟨a, hit, hkey.symm⟩
    · exact ⟨c, hc, rfl⟩

theorem Indexes.without (h : Indexes key index l) (hit : (it, a) ∈ l.cells)
    (hcells : ∀ c, c ∈ l'.cells ↔ c ∈ l.cells ∧ c.1 ≠ it) :
    Indexes key (index.erase (key a)) l' := by
  intro k name
  simp only [hcells]
  by_cases hk : k = key a
  · subst hk
    rw [AList.lookup_erase]
    constructor
    · nofun
    · rintro ⟨c, ⟨hc, hne⟩, hkey⟩
      exact absurd (h.name_eq hc hit hkey) hne
  · rw [AList.lookup_erase_ne hk, h k name]
    constructor
    · rintro ⟨c, hc, rfl⟩
      refine ⟨c, ⟨hc, ?_⟩, rfl⟩
      rintro rfl
      exact hk (congrArg key (LinkedList.cell_unique hc hit))
    · rintro ⟨c, ⟨hc, -⟩, hkey⟩
      exact ⟨c, hc, hkey⟩

theorem Indexes.remove (h : Indexes key index l) (hit : (it, a) ∈ l.cells) :
    Indexes key (index.erase (key a)) (l.remove it) :=
  h.without hit fun _ => LinkedList.mem_remove

theorem Indexes.popBack (h : Indexes key index l)
    (hcells : l.cells = l'.cells ++ [c]) : Indexes key (index.erase (key c.2)) l' := by
  have hlast : (c.1, c.2) ∈ l.cells := by simp [hcells]
  exact h.without hlast (LinkedList.mem_popBack hcells)

theorem Indexes.values_remove (h : Indexes key index l) (hit : (it, a) ∈ l.cells) :
    (l.remove it).values = l.values.filter fun b => key b != key a := by
  unfold LinkedList.values
  rw [filter_map]
  refine congrArg (map Prod.snd) (filter_congr fun c hc => ?_)
  have hiff : c.1 = it ↔ key c.2 = key a := by
    constructor
    · intro hname
      obtain ⟨name, b⟩ := c
      obtain rfl : name = it := hname
      exact congrArg key (LinkedList.cell_unique hc hit)
    · exact h.name_eq hc hit
  rw [Function.comp_apply, Bool.eq_iff_iff, bne_iff_ne, bne_iff_ne]
  exact not_congr hiff

end Index

/-! ## The order of use -/

section Recency

variable {α K : Type} [DecidableEq K] {uses keys : List K} {k : K}

def use (key : α → K) (a : α) (items : List α) : List α :=
  a :: items.filter fun b => key b != key a

theorem map_use (key : α → K) (a) (items : List α) :
    (use key a items).map key = key a :: (items.map key).filter (· != key a) := by
  simp [use, filter_map, Function.comp_def]

theorem use_of_notMem {key : α → K} {a : α} (h : key a ∉ items.map key) :
    use key a items = a :: items := by
  unfold use
  refine congrArg (a :: ·) (filter_eq_self.mpr fun b hb => ?_)
  rw [bne_iff_ne]
  intro hkey
  exact h (mem_map.mpr ⟨b, hb, hkey⟩)

/-- The keys stand in the order of their last uses, of which the latest comes first. -/
def ByRecency (uses keys : List K) : Prop :=
  keys.Pairwise (fun a b => uses.idxOf a < uses.idxOf b) ∧ ∀ k ∈ keys, k ∈ uses

theorem byRecency_nil : ByRecency uses [] :=
  ⟨List.Pairwise.nil, nofun⟩

theorem ByRecency.sublist (h : ByRecency uses keys)
    (hsub : keys'.Sublist keys) : ByRecency uses keys' :=
  ⟨h.1.sublist hsub, fun k hk => h.2 k (hsub.subset hk)⟩

theorem ByRecency.use (h : ByRecency uses keys) :
    ByRecency (k :: uses) (k :: keys.filter (· != k)) := by
  have hrest : ∀ a ∈ keys.filter (· != k), (k :: uses).idxOf a = uses.idxOf a + 1 := by
    intro a ha
    have hne : a ≠ k := by simpa using of_mem_filter ha
    exact idxOf_cons_ne _ hne.symm
  refine ⟨pairwise_cons.mpr ⟨?_, ?_⟩, ?_⟩
  · intro a ha
    rw [hrest a ha, idxOf_cons_self]
    exact Nat.succ_pos _
  · refine List.Pairwise.imp_of_mem ?_ (h.1.sublist filter_sublist)
    intro a b ha hb hlt
    rw [hrest a ha, hrest b hb]
    exact Nat.succ_lt_succ hlt
  · intro a ha
    rcases mem_cons.mp ha with rfl | ha
    · exact mem_cons_self
    · exact mem_cons_of_mem _ (h.2 a (mem_of_mem_filter ha))

end Recency
end Lib.LinkedIndex
