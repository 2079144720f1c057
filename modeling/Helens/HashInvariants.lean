import Helens.HashTable

/-! Two invariants of the tables: `Inv` of the runs knows where every key lies, `Rep` of a table
read from a stream only that the buckets are there and in order. What the operations need is said
once for both. -/

namespace Helens.Ds.Table

open Lib.Runs Lib.SortedVector

variable {K β : Type} [LinearOrder K] {hash : K → Nat} {sorter : Sorter (K × β) Prod.fst}

variable (hash) (sorter) in
/-- An invariant that new tables have and the operations keep. Where `Q` allows it, looking
for a key may stop the program. -/
structure Tame (Q : HashError → Prop) (P : Table K β → Prop) : Prop where
  of_inv : ∀ {t}, t.Inv hash → P t
  total : ∀ {t}, P t → t.total = t.nodes.length
  allNodes : ∀ {t}, P t → t.allNodes = .ok t.nodes
  locate : ∀ {t}, P t → ∀ k, Post (fun r => t.buckets[r.1]? = some r.2.1 ∧
    ∀ i, r.2.2 = some i → ∃ v, r.2.1[i]? = some (k, v)) Q (t.locate hash k)
  rehash : ∀ {t}, P t → t.total < 2 ^ 31 →
    ∃ t', t.rehash hash sorter = .ok t' ∧ P t' ∧ t'.nodes.Perm t.nodes
  add : ∀ {t k pos b}, P t → t.locate hash k = .ok (pos, b, none) → t.total + 1 < 2 ^ 31 → ∀ v,
    P (t.addNode pos b (k, v)) ∧ (t.addNode pos b (k, v)).nodes.Perm ((k, v) :: t.nodes)
  write : ∀ {t k pos b i v}, P t → t.locate hash k = .ok (pos, b, some i) → b[i]? = some (k, v) →
    ∀ v', P (t.writeNode pos b i v') ∧ ∃ rest, t.nodes.Perm ((k, v) :: rest) ∧
      (t.writeNode pos b i v').nodes.Perm ((k, v') :: rest)
  remove : ∀ {t k pos b i v}, P t → t.locate hash k = .ok (pos, b, some i) → b[i]? = some (k, v) →
    t.total < 2 ^ 31 → P (t.removeNode sorter pos b i) ∧
      t.nodes.Perm ((k, v) :: (t.removeNode sorter pos b i).nodes)

variable {t : Table K β} {k : K} {pos}

theorem exists_of_locate (h : t.locate hash k = .ok (pos, b, it)) :
    pos = hash k % 2 ^ 32 % t.size ∧ t.buckets[pos]? = some b ∧ it = search Prod.fst b k := by
  unfold locate bucketAt at h
  split at h
  · cases h
  · split at h
    · cases h
    · next bs hbs =>
      dsimp only at h
      split at h
      · cases h
      · next c hc =>
        have heq : (hash k % 2 ^ 32 % t.size, c, search Prod.fst c k) = (pos, b, it) :=
          Except.ok.inj h
        obtain ⟨rfl, rfl, rfl⟩ := Prod.mk.inj heq |>.imp id Prod.mk.inj
        refine ⟨rfl, ?_, rfl⟩
        rw [buckets, hbs]
        exact hc

theorem mem_nodes_of_locate
    (hl : t.locate hash k = .ok (pos, b, some i)) (hi : b[i]? = some (k, v)) : (k, v) ∈ t.nodes :=
  mem_nodes_of_bucket (exists_of_locate hl).2.1 (List.mem_of_getElem? hi)

/-- What follows a look for a key: for a key without a node, and for one with a node that
holds it. -/
theorem Tame.post_locate {α : Type} {Q : HashError → Prop} {P : Table K β → Prop} {R : α → Prop}
    {f : Nat × List (K × β) × Option Nat → Except HashError α} (tame : Tame hash sorter Q P)
    (h : P t) (habsent : ∀ pos b, t.locate hash k = .ok (pos, b, none) → Post R Q
      (f (pos, b, none)))
    (hpresent : ∀ pos b i v, t.locate hash k = .ok (pos, b, some i) → b[i]? = some (k, v) →
      Post R Q (f (pos, b, some i))) : Post R Q (t.locate hash k >>= f) := by
  apply (tame.locate h k).bind_eq
  rintro ⟨pos, b, it⟩ hl ⟨-, hfound⟩
  cases it with
  | none => exact habsent pos b hl
  | some i =>
    obtain ⟨v, hi⟩ := hfound i rfl
    exact hpresent pos b i v hl hi

/-! ## The invariant of the runs -/

theorem Inv.locate_bucket (h : t.Inv hash) {pos : Nat} {b : List (K × β)} {it : Option Nat}
    (hl : t.locate hash k = .ok (pos, b, it)) :
    pos = hash k % t.size ∧ t.buckets[hash k % t.size]? = some b := by
  obtain ⟨rfl, hb, -⟩ := exists_of_locate hl
  rw [h.mod_mod] at hb
  exact ⟨h.mod_mod _, hb⟩

variable (sorter) in
theorem tame_inv : Tame hash sorter Never (Inv hash : Table K β → Prop) where
  of_inv := id
  total h := h.total
  allNodes h := h.rep.allNodes_eq
  locate h k := by
    apply (locate_post h k).imp
    intro r hr
    cases hr with
    | absent hb hk => exact ⟨hb, fun i hi => by cases hi⟩
    | present hb hi =>
      refine ⟨hb, fun i heq => ?_⟩
      cases heq
      exact ⟨_, hi⟩
  rehash h hlt := by
    obtain ⟨t', ht', hinv, -, hperm⟩ := (rehash_post h hlt).exists_ok
    exact ⟨t', ht', hinv, hperm⟩
  add h hl hlt v := by
    obtain ⟨rfl, hb⟩ := h.locate_bucket hl
    have hk := (locate_post h _).of_ok hl
    cases hk with
    | absent hb' hk => exact addNode_inv h hb hk hlt v
  write h hl hi v' := by
    obtain ⟨rfl, hb⟩ := h.locate_bucket hl
    exact writeNode_inv h hb hi v'
  remove h hl hi _ := by
    obtain ⟨rfl, hb⟩ := h.locate_bucket hl
    exact removeNode_inv sorter h hb hi

/-! ## The representation -/

theorem Rep.locate_post (h : t.Rep) (k) : Post (fun r => t.buckets[r.1]? = some r.2.1 ∧
      ∀ i, r.2.2 = some i → ∃ v, r.2.1[i]? = some (k, v)) Never (t.locate hash k) := by
  have hlt : hash k % 2 ^ 32 % t.size < t.buckets.length := by
    rw [h.length]
    exact Nat.mod_lt _ h.pos
  have hb := List.getElem?_eq_getElem hlt
  rw [locate_eq h.pos h.datas hb]
  refine ⟨hb, fun i hi => ?_⟩
  obtain ⟨⟨k', v⟩, hv, rfl⟩ := key_of_search hi
  exact ⟨v, hv⟩

theorem tame_rep : Tame hash sorter Never (Rep : Table K β → Prop) where
  of_inv := Inv.rep
  total h := h.total
  allNodes h := h.allNodes_eq
  locate h k := h.locate_post k
  rehash h hlt := by
    obtain ⟨t', ht', hrep, -, hperm, -⟩ := (h.rehash_post hlt).exists_ok
    exact ⟨t', ht', hrep, hperm⟩
  add h hl hlt v := h.addNode (exists_of_locate hl).2.1 hlt _
  write h hl hi v' := h.writeNode (exists_of_locate hl).2.1 hi v'
  remove h hl hi _ := h.removeNode sorter (exists_of_locate hl).2.1 hi

end Helens.Ds.Table
