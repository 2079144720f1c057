import Helens.HashInvariants
import Helens.Lib.FiniteMap

/-! The arrays of values that the nodes of `Dict` and `HashMultimap` point to. A node owns
its array, or points into the vector `m_values` that was read from a stream. -/

namespace Helens.Ds

open Lib.Runs Lib.SortedVector Lib.FiniteMap List

/-! ## The code -/

/-- Where `val` points: nowhere, to an array of the node's own, or into `m_values`. -/
inductive Place (V : Type)
  | null
  | own (vs : List V)
  | shared (offset : Nat)
  deriving DecidableEq

structure Values (V : Type) where
  size : Int
  val : Place V
  deriving DecidableEq

section
variable {V : Type} (pool : List V)

def inValues : Place V → Bool
  | .null => true
  | .own _ => false
  | .shared offset => decide (offset < pool.length)

/-- `if(!inValues(val)) delete[] val`, where only a node's own array was allocated. -/
def release (val : Place V) : Except HashError Unit :=
  if inValues pool val then .ok ()
  else
    match val with
    | .shared _ => .error .invalidFree
    | _ => .ok ()

def Values.read (x : Values V) : Except HashError (List V) :=
  if x.size < 0 then .error .invalidRange
  else
    match x.val with
    | .null => if 0 < x.size then .error .outsideArray else .ok []
    | .own vs => if vs.length < x.size then .error .outsideArray else .ok (vs.take x.size.toNat)
    | .shared offset => if pool.length < offset + x.size then .error .outsideArray
      else .ok ((pool.drop offset).take x.size.toNat)

def Values.toList (x : Values V) : List V :=
  match x.read pool with
  | .ok vs => vs
  | .error _ => []

inductive Holds : Values V → List V → Prop
  | null : Holds ⟨0, .null⟩ []
  | own (vs : List V) : Holds ⟨vs.length, .own vs⟩ vs
  | shared {offset : Nat} {vs : List V} (hlt : offset < pool.length)
      (hvs : vs <+: pool.drop offset) : Holds ⟨vs.length, .shared offset⟩ vs

variable {pool}

theorem Holds.size_eq (h : Holds pool x vs) : x.size = vs.length := by
  cases h <;> rfl

theorem Holds.eq_nil (h : Holds pool x vs) (hx : x.val = .null) : vs = [] := by
  cases h with
  | null => rfl
  | own => cases hx
  | shared hlt hvs => cases hx

theorem Holds.eq_own (h : Holds pool x vs) (hx : x.val = .own ws) : vs = ws := by
  cases h with
  | null => cases hx
  | own =>
    cases hx
    rfl
  | shared hlt hvs => cases hx

theorem Holds.le_length (h : Holds pool x vs) (hx : x.val = .shared offset) :
    offset < pool.length ∧ offset + vs.length ≤ pool.length := by
  cases h with
  | null => cases hx
  | own => cases hx
  | shared hlt hvs =>
    cases hx
    have hle := hvs.length_le
    rw [length_drop] at hle
    omega

theorem Holds.shared_take {offset count : Nat} (hlt : offset < pool.length)
    (hle : offset + count ≤ pool.length) :
    Holds pool ⟨count, .shared offset⟩ ((pool.drop offset).take count) := by
  have hlen : ((pool.drop offset).take count).length = count := by
    rw [length_take, length_drop]
    omega
  have hshared : Holds pool ⟨((pool.drop offset).take count).length, .shared offset⟩
      ((pool.drop offset).take count) := .shared hlt ( take_prefix _ _)
  rwa [hlen] at hshared

theorem Holds.read_eq (h : Holds pool x vs) : x.read pool = .ok vs := by
  cases h with
  | null => rfl
  | own =>
    simp [Values.read]
  | shared hlt hvs =>
    rename_i offset
    have hlen : ¬ (pool.length : Int) < offset + vs.length := by
      have hle := hvs.length_le
      rw [length_drop] at hle
      omega
    have hnonneg : ¬ ((vs.length : Int) < 0) := by omega
    have htake := prefix_iff_eq_take.mp hvs
    simp [Values.read, hnonneg, hlen, ← htake]

theorem Holds.toList_eq (h : Holds pool x vs) : x.toList pool = vs := by
  rw [Values.toList, h.read_eq]

theorem Holds.of_length {pool' : List V} (h : Holds pool x vs) (hlen : pool'.length = pool.length) :
    Holds pool' x (x.toList pool') := by
  cases h with
  | null => exact .null
  | own =>
    rw [(Holds.own vs).toList_eq]
    exact .own vs
  | shared hlt hvs =>
    obtain ⟨hlt, hle⟩ := (Holds.shared hlt hvs).le_length rfl
    rw [← hlen] at hlt hle
    have hshared := Holds.shared_take hlt hle
    rw [hshared.toList_eq]
    exact hshared

theorem Holds.release_eq (h : Holds pool x vs) : release pool x.val = .ok () := by
  cases h with
  | null => rfl
  | own => rfl
  | shared hlt hvs => simp [release, inValues, hlt]

end

/-! ## Tables that are kept -/

section
variable {K V : Type} [LinearOrder K] {hash : K → Nat} {sorter : Sorter (K × Values V) Prod.fst}

structure Kept (P : Table K (Values V) → Prop) (low : Nat) (pool : List V)
    (t : Table K (Values V)) : Prop where
  table : P t
  arrays : ∀ n ∈ t.nodes, Holds pool n.2 (n.2.toList pool)
  sizes : ∀ n ∈ t.nodes, low ≤ n.2.size ∧ n.2.size < 2 ^ 31

variable {Q : HashError → Prop} {P : Table K (Values V) → Prop} {pool pool' : List V}
  {t t' : Table K (Values V)} {k : K} {pos i : Nat}

omit [LinearOrder K] in
theorem Kept.of_mem (h : Kept P low pool t) (ht : P t') (hsub : ∀ n ∈ t'.nodes, n ∈ t.nodes) :
    Kept P low pool t' :=
  ⟨ht, fun n hn => h.arrays n (hsub n hn), fun n hn => h.sizes n (hsub n hn)⟩

omit [LinearOrder K] in
theorem Kept.of_mem_cons (h : Kept P low pool t) (ht : P t') {vs : List V}
    (hsub : ∀ n ∈ t'.nodes, n = (k, x) ∨ n ∈ t.nodes) (hx : Holds pool x vs)
    (hlow : low ≤ vs.length) (hlt : vs.length < 2 ^ 31) : Kept P low pool t' := by
  refine ⟨ht, ?_, ?_⟩
  · intro n hn
    rcases hsub n hn with rfl | hn
    · rw [hx.toList_eq]
      exact hx
    · exact h.arrays n hn
  · intro n hn
    rcases hsub n hn with rfl | hn
    · rw [hx.size_eq]
      omega
    · exact h.sizes n hn

omit [LinearOrder K] in
theorem Kept.of_length (h : Kept P low pool t) (hlen : pool'.length = pool.length) :
    Kept P low pool' t :=
  ⟨h.table, fun n hn => (h.arrays n hn).of_length hlen, h.sizes⟩

theorem Kept.holds (h : Kept P low pool t) (hl : t.locate hash k = .ok (pos, b, some i))
    (hi : b[i]? = some (k, x)) : Holds pool x (x.toList pool) :=
  h.arrays (k, x) (Table.mem_nodes_of_locate hl hi)

variable (tame : Table.Tame hash sorter Q P)
include tame

theorem Kept.add (h : Kept P low pool t) (hl : t.locate hash k = .ok (pos, b, none))
    (htotal : t.total + 1 < 2 ^ 31) {vs : List V} (hx : Holds pool x vs)
    (hlow : low ≤ vs.length) (hlt : vs.length < 2 ^ 31) :
    Kept P low pool (t.addNode pos b (k, x)) := by
  obtain ⟨hP, hperm⟩ := tame.add h.table hl htotal x
  apply h.of_mem_cons hP (k := k) ?_ hx hlow hlt
  intro n hn
  exact mem_cons.mp (hperm.mem_iff.mp hn)

theorem Kept.write (h : Kept P low pool t) (hl : t.locate hash k = .ok (pos, b, some i))
    (hi : b[i]? = some (k, old)) {vs : List V} (hx : Holds pool x vs)
    (hlow : low ≤ vs.length) (hlt : vs.length < 2 ^ 31) :
    Kept P low pool (t.writeNode pos b i x) := by
  obtain ⟨hP, rest, hold, hnew⟩ := tame.write h.table hl hi x
  apply h.of_mem_cons hP (k := k) ?_ hx hlow hlt
  intro n hn
  apply (mem_cons.mp (hnew.mem_iff.mp hn)).imp_right
  intro hrest
  exact hold.mem_iff.mpr (mem_cons_of_mem _ hrest)

theorem Kept.remove (h : Kept P low pool t) (hl : t.locate hash k = .ok (pos, b, some i))
    (hi : b[i]? = some (k, x)) (htotal : t.total < 2 ^ 31) :
    Kept P low pool (t.removeNode sorter pos b i) := by
  obtain ⟨hP, hperm⟩ := tame.remove h.table hl hi htotal
  apply h.of_mem hP
  intro n hn
  exact hperm.mem_iff.mpr (mem_cons_of_mem _ hn)

theorem Kept.new_post (low pool) (hpos : 0 < size) (hne : size ≠ 2 ^ 31) (hlt : size < 2 ^ 32) :
    Post (Kept P low pool) Never (Table.new size) := by
  apply (Table.new_post hash hpos hne hlt).imp
  rintro t ⟨hinv, hnil⟩
  refine ⟨tame.of_inv hinv, ?_, ?_⟩
  · simp [hnil]
  · simp [hnil]

theorem Kept.rehash_post (h : Kept P low pool t) (htotal : t.total < 2 ^ 31) :
    Post (fun t' => Kept P low pool t' ∧ t'.total = t.total ∧ ∀ n ∈ t'.nodes, n ∈ t.nodes) Q
      (t.rehash hash sorter) := by
  obtain ⟨t', ht', hP, hperm⟩ := tame.rehash h.table htotal
  rw [ht']
  have hsub : ∀ n ∈ t'.nodes, n ∈ t.nodes := fun n hn => hperm.mem_iff.mp hn
  refine ⟨h.of_mem hP hsub, ?_, hsub⟩
  rw [tame.total hP, tame.total h.table, hperm.length_eq]

end

/-! ## Tables of arrays -/

section
variable {K V : Type} [LinearOrder K] (hash : K → Nat) {sorter : Sorter (K × Values V) Prod.fst}

def entry (pool : List V) (n : K × Values V) : K × List V := (n.1, n.2.toList pool)

def contents (pool : List V) (t : Table K (Values V)) : List (K × List V) :=
  t.nodes.map (entry pool)

structure Sound (pool : List V) (t : Table K (Values V)) : Prop where
  inv : t.Inv hash
  total : t.total < 2 ^ 31
  arrays : ∀ n ∈ t.nodes, Holds pool n.2 (n.2.toList pool)
  lengths : ∀ n ∈ t.nodes, (n.2.toList pool).length < 2 ^ 31

variable {hash} {pool : List V} {t t' : Table K (Values V)} {k : K}

variable (pool) in
omit [LinearOrder K] in
theorem keys_contents : (contents pool t).map Prod.fst = t.nodes.map Prod.fst := by
  simp [contents, entry]

theorem Sound.length_contents (h : Sound hash pool t) : (contents pool t).length = t.total := by
  rw [contents, length_map, h.inv.total]

theorem Sound.nodup (h : Sound hash pool t) : ((contents pool t).map Prod.fst).Nodup := by
  rw [keys_contents]
  exact h.inv.nodup

variable {i : Nat} {b : List (K × Values V)} {x : Values V}

omit [LinearOrder K] in
theorem mem_contents {p : Nat} (hb : t.buckets[p]? = some b) (hi : b[i]? = some (k, x)) :
    (k, x.toList pool) ∈ contents pool t :=
  mem_map.mpr ⟨(k, x), Table.mem_nodes_of_bucket hb (mem_of_getElem? hi), rfl⟩

theorem valueOf_contents_none (hk : k ∉ t.nodes.map Prod.fst) :
    valueOf (contents pool t) k = none := by
  rw [valueOf_eq_none_iff, keys_contents]
  exact hk

theorem Sound.valueOf_contents (h : Sound hash pool t) {p : Nat} (hb : t.buckets[p]? = some b)
    (hi : b[i]? = some (k, x)) :
    valueOf (contents pool t) k = some (x.toList pool) :=
  (valueOf_eq_some_iff h.nodup).mpr (mem_contents hb hi)

theorem Sound.holds (h : Sound hash pool t) {p : Nat} (hb : t.buckets[p]? = some b)
    (hi : b[i]? = some (k, x)) : Holds pool x (x.toList pool) :=
  h.arrays (k, x) (Table.mem_nodes_of_bucket hb (mem_of_getElem? hi))

theorem Sound.kept (h : Sound hash pool t) : Kept (Table.Inv hash) 0 pool t := by
  refine ⟨h.inv, h.arrays, ?_⟩
  intro n hn
  have hsize := (h.arrays n hn).size_eq
  have hlt := h.lengths n hn
  omega

theorem Kept.sound (h : Kept (Table.Inv hash) 0 pool t) (htotal : t.total < 2 ^ 31) :
    Sound hash pool t := by
  refine ⟨h.table, htotal, h.arrays, ?_⟩
  intro n hn
  have hsize := (h.arrays n hn).size_eq
  have hlt := (h.sizes n hn).2
  omega

theorem Sound.of_perm (h : Sound hash pool t) (hinv : t'.Inv hash) (hperm : t'.nodes.Perm t.nodes) :
    Sound hash pool t' ∧ (contents pool t').Perm (contents pool t) := by
  have htotal : t'.total < 2 ^ 31 := by
    rw [hinv.total, hperm.length_eq, ← h.inv.total]
    exact h.total
  exact ⟨(h.kept.of_mem hinv fun n hn => hperm.mem_iff.mp hn).sound htotal, hperm.map _⟩

theorem Sound.of_empty {t : Table K (Values V)} (h : t.Inv hash ∧ t.nodes = []) :
    Sound hash pool t ∧ contents pool t = [] := by
  obtain ⟨hinv, hnil⟩ := h
  refine ⟨⟨hinv, ?_, ?_, ?_⟩, ?_⟩
  · rw [hinv.total, hnil, length_nil]
    decide
  · simp [hnil]
  · simp [hnil]
  · simp [contents, hnil]

variable (hash) (pool) in
theorem Sound.new_post (hpos : 0 < size) (hne : size ≠ 2 ^ 31) (hlt : size < 2 ^ 32) :
    Post (fun t : Table K (Values V) => Sound hash pool t ∧ contents pool t = []) Never
      (Table.new size) :=
  (Table.new_post hash hpos hne hlt).imp (fun _ => Sound.of_empty)

variable (sorter) in
theorem Sound.rehash_post (h : Sound hash pool t) :
    Post (fun t' => Sound hash pool t' ∧ (contents pool t').Perm (contents pool t))
      Never (t.rehash hash sorter) := by
  apply (Table.rehash_post h.inv h.total).imp
  rintro t' ⟨hinv, -, hperm⟩
  exact h.of_perm hinv hperm

theorem Sound.locate_rehashed {σ : Type} (h : Sound hash pool t) {P : σ → Prop}
    {f : Table K (Values V) → Nat × List (K × Values V) × Option Nat → Except HashError σ}
    (hf : ∀ t' found, Sound hash pool t' → (contents pool t').Perm (contents pool t) →
      Table.Located hash t' k found → Post P Never (f t' found)) :
    Post P Never (t.autoRehash hash sorter >>= fun t' => t'.locate hash k >>= f t') := by
  rw [Table.autoRehash_eq]
  apply (h.rehash_post sorter).bind
  rintro t' ⟨ht, hperm⟩
  apply (Table.locate_post ht.inv k).bind
  exact fun found hfound => hf t' found ht hperm hfound

theorem Sound.addNode (h : Sound hash pool t) (hb : t.buckets[hash k % t.size]? = some b)
    (hk : k ∉ t.nodes.map Prod.fst)
    (htotal : t.total + 1 < 2 ^ 31) (hx : Holds pool x vs) (hvs : vs.length < 2 ^ 31) :
    Sound hash pool (t.addNode (hash k % t.size) b (k, x)) ∧
      (contents pool (t.addNode (hash k % t.size) b (k, x))).Perm ((k, vs) :: contents pool t) := by
  obtain ⟨hinv, hperm⟩ := Table.addNode_inv h.inv hb hk htotal x
  have hsub : ∀ n ∈ (t.addNode (hash k % t.size) b (k, x)).nodes, n = (k, x) ∨ n ∈ t.nodes :=
    fun n hn => mem_cons.mp (hperm.mem_iff.mp hn)
  refine ⟨(h.kept.of_mem_cons hinv hsub hx (by omega) hvs).sound ?_, ?_⟩
  · rw [hinv.total, hperm.length_eq, length_cons, ← h.inv.total]
    exact htotal
  · have hmap := hperm.map (entry pool)
    rw [map_cons, entry, hx.toList_eq] at hmap
    exact hmap

theorem Sound.writeNode (h : Sound hash pool t) {x' : Values V}
    (hb : t.buckets[hash k % t.size]? = some b) (hi : b[i]? = some (k, x))
    (hx : Holds pool x' vs) (hvs : vs.length < 2 ^ 31) :
    Sound hash pool (t.writeNode (hash k % t.size) b i x') ∧
      ∃ rest, (contents pool t).Perm ((k, x.toList pool) :: rest) ∧
        (contents pool (t.writeNode (hash k % t.size) b i x')).Perm ((k, vs) :: rest) := by
  obtain ⟨hinv, rest, hold, hnew⟩ := Table.writeNode_inv h.inv hb hi x'
  have hsub : ∀ n ∈ (t.writeNode (hash k % t.size) b i x').nodes, n = (k, x') ∨ n ∈ t.nodes := by
    intro n hn
    apply (mem_cons.mp (hnew.mem_iff.mp hn)).imp_right
    exact fun hrest => hold.mem_iff.mpr (mem_cons_of_mem _ hrest)
  refine ⟨(h.kept.of_mem_cons hinv hsub hx (by omega) hvs).sound ?_, rest.map (entry pool),
    hold.map (entry pool), ?_⟩
  · rw [hinv.total, hnew.length_eq, length_cons, ← length_cons (a := (k, x)),
      ← hold.length_eq, ← h.inv.total]
    exact h.total
  · have hmap := hnew.map (entry pool)
    rw [map_cons, entry, hx.toList_eq] at hmap
    exact hmap

variable (sorter) in
theorem Sound.removeNode (h : Sound hash pool t) (hb : t.buckets[hash k % t.size]? = some b)
    (hi : b[i]? = some (k, x)) :
    Sound hash pool (t.removeNode sorter (hash k % t.size) b i) ∧ (contents pool t).Perm
        ((k, x.toList pool) :: contents pool (t.removeNode sorter (hash k % t.size) b i)) := by
  obtain ⟨hinv, hperm⟩ := Table.removeNode_inv sorter h.inv hb hi
  have hsub : ∀ n ∈ (t.removeNode sorter (hash k % t.size) b i).nodes, n ∈ t.nodes :=
    fun n hn => hperm.mem_iff.mpr (mem_cons_of_mem _ hn)
  refine ⟨(h.kept.of_mem hinv hsub).sound ?_, hperm.map _⟩
  have hlen := hperm.length_eq
  rw [length_cons, ← h.inv.total, ← hinv.total] at hlen
  have htotal := h.total
  omega

end

end Helens.Ds
