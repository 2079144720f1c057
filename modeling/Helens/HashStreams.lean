import Helens.HashMap
import Helens.Lib.PlainData

/-! Hash tables in streams: the vectors of nodes and values that are read and written, and
the buckets that are built for the nodes that were read. Every allocation may be refused. -/

namespace Helens.Ds

open Lib.Runs Lib.SortedVector Lib.Words Lib.PlainData List

/-! ## Vectors -/

/-- The allocations of `readFrom`: `resize` of the two vectors, the array of buckets, and
the `push_back` of the `i`th node. -/
inductive Request
  | values (count : Nat)
  | nodes (count : Nat)
  | buckets (count : Nat)
  | push (i : Nat)

/-- The bytes that `ReadFixFromStream` finds. A size that is negative as a `streamsize`
finds none. -/
def fixBytes (size : Nat) (is : List UInt8) : List UInt8 :=
  if size < 2 ^ 63 then is.take size else []

section
variable {α : Type} [Inhabited α] (pod : Pod α)

def resize (xs : List α) (count : Nat) : List α :=
  xs.take count ++ List.replicate (count - xs.length) default

/-- A size is read, the vector resized, and that many bytes read into it. With the vector
comes what follows in the stream, where all of them were there. -/
def readVector (granted : Nat → Bool) (old : List α) (is : List UInt8) :
    Except HashError (List α × Option (List UInt8)) :=
  match readWord 8 is with
  | none => .ok (old, none)
  | some (size, is) =>
    let count := size / pod.size
    if old.length < count ∧ granted count = false then .ok (old, none)
    else
      let bytes := fixBytes size is
      if count * pod.size < bytes.length then .error .outsideArray
      else
        let image := bytes ++ (pod.encodeAll (resize old count)).drop bytes.length
        .ok (pod.decodeAll count image, if bytes.length = size then some (is.drop size) else none)

omit [Inhabited α] in
/-- The size in bytes, then the bytes. A size that is negative as a `streamsize` writes
none, and the stream fails. -/
def writeVector (xs : List α) : List UInt8 × Bool :=
  let size := xs.length * pod.size % 2 ^ 64
  if size < 2 ^ 63 then (leBytes 8 size ++ (pod.encodeAll xs).take size, true)
  else (leBytes 8 size, false)

variable {pod}

theorem fixBytes_length_eq_iff {is : List UInt8} : (fixBytes size is).length = size ↔
      size < 2 ^ 63 ∧ fixBytes size is = is.take size ∧ size ≤ is.length := by
  unfold fixBytes
  split
  · next hlt =>
    rw [length_take]
    constructor
    · intro h
      exact ⟨hlt, rfl, by omega⟩
    · rintro ⟨-, -, h⟩
      exact Nat.min_eq_left h
  · next hge =>
    constructor
    · intro h
      rw [length_nil] at h
      omega
    · rintro ⟨hlt, -⟩
      exact absurd hlt hge

theorem readVector_eq_iff {granted : Nat → Bool} {is rest : List UInt8} :
    readVector pod granted old is = .ok (xs, some rest) ↔
      pod.Image is xs rest ∧ xs.length * pod.size < 2 ^ 63 ∧
        (old.length < xs.length → granted xs.length = true) := by
  constructor
  · intro h
    unfold readVector at h
    split at h
    · cases h
    · next size is' hword =>
      obtain ⟨-, rfl⟩ := readWord_eq_some_iff.mp hword
      dsimp only at h
      split at h
      · cases h
      · next hgrant =>
        split at h
        · cases h
        · next hroom =>
          simp only [Except.ok.injEq, Prod.mk.injEq] at h
          obtain ⟨rfl, hrest⟩ := h
          split at hrest
          · next hall =>
            obtain ⟨hlt, hbytes, hle⟩ := fixBytes_length_eq_iff.mp hall
            have hdvd : size / pod.size * pod.size = size := by
              have hmul := Nat.div_mul_le_self size pod.size
              omega
            have hlen : (is'.take size).length = size := length_take_of_le hle
            cases hrest
            rw [pod.length_decodeAll, hdvd]
            refine ⟨⟨is'.take size, ?_, ?_, ?_⟩, hlt, ?_⟩
            · rw [hlen, take_append_drop]
            · rw [pod.length_decodeAll, hdvd, hlen]
            · rw [pod.length_decodeAll, hbytes, hlen]
              have hdrop : (pod.encodeAll (resize old (size / pod.size))).drop size = [] := by
                apply drop_of_length_le
                rw [pod.length_encodeAll, resize, length_append, length_take, length_replicate]
                have hsum : min (size / pod.size) old.length + (size / pod.size - old.length) =
                    size / pod.size := by omega
                rw [hsum, hdvd]
              rw [hdrop, append_nil]
            · intro hold
              cases hg : granted (size / pod.size) with
              | true => rfl
              | false => exact absurd ⟨hold, hg⟩ hgrant
          · cases hrest
  · rintro ⟨⟨bytes, rfl, hlen, hxs⟩, hlt, hgrant⟩
    have hword := readWord_leBytes (w := 8) (n := bytes.length) (by omega) (bytes ++ rest)
    have hcount : bytes.length / pod.size = xs.length := by
      rw [hlen, Nat.mul_div_cancel _ pod.pos]
    have hfix : fixBytes bytes.length (bytes ++ rest) = bytes := by
      rw [fixBytes, if_pos (by omega), take_left]
    have hgranted : ¬ (old.length < xs.length ∧ granted xs.length = false) := by
      rintro ⟨hold, hfalse⟩
      rw [hgrant hold] at hfalse
      cases hfalse
    have hroom : ¬ xs.length * pod.size < bytes.length := by omega
    have hdrop : (pod.encodeAll (resize old xs.length)).drop bytes.length = [] := by
      apply drop_of_length_le
      rw [pod.length_encodeAll, resize, length_append, length_take, length_replicate, hlen]
      apply Nat.mul_le_mul_right
      omega
    rw [readVector, hword]
    dsimp only
    rw [hcount, if_neg hgranted, hfix, if_neg hroom, hdrop, append_nil, if_pos rfl,
      drop_left, ← hxs]

end

/-! ## Tables -/

namespace Table

variable {K β : Type} [LinearOrder K] (hash : K → Nat) (sorter : Sorter (K × β) Prod.fst)

def pushNodes (granted : Nat → Bool) (size : Nat) :
    Nat → List (K × β) → List (List (K × β)) → Except HashError (List (List (K × β)) × Nat)
  | i, [], bs => .ok (bs, i)
  | i, n :: ns, bs => do
    let bs' ← pushNode hash size bs n
    if granted i then pushNodes granted size (i + 1) ns bs' else .ok (bs, i)

/-- `m_total` is set and the array of buckets made for the nodes. With the table comes how
many of them were pushed, and whether nothing was refused. -/
def load (granted : Request → Bool) (t : Table K β) (ns : List (K × β)) :
    Except HashError (Table K β × Nat × Bool) :=
  if granted (.buckets t.size) then do
    let (bs, pushed) ←
      pushNodes hash (fun i => granted (.push i)) t.size 0 ns (List.replicate t.size [])
    if pushed = ns.length then
      .ok ({ t with total := ns.length, datas := some (bs.map sorter.sort) }, pushed, true)
    else .ok ({ t with total := ns.length, datas := some bs }, pushed, false)
  else .ok ({ t with total := ns.length, datas := none }, 0, false)

def Granted (granted : Request → Bool) (size count : Nat) : Prop :=
  granted (.buckets size) = true ∧ ∀ i < count, granted (.push i) = true

structure Loaded (size : Nat) (ns : List (K × β)) (t : Table K β) : Prop where
  rep : t.Rep
  size_eq : t.size = size
  perm : t.nodes.Perm ns
  home : ∀ (i : Nat) b, t.buckets[i]? = some b → ∀ n ∈ b, hash n.1 % size = i

variable {hash} {sorter} {granted : Request → Bool}

omit [LinearOrder K] in
theorem pushNodes_post (granted : Nat → Bool) {size : Nat} (hpos : 0 < size) :
    ∀ (ns : List (K × β)) (i : Nat) (pre : List (K × β)) (bs : List (List (K × β))),
      Pushed hash size pre bs →
      Post (fun r => ∃ part, part <+: ns ∧ r.2 = i + part.length ∧
          Pushed hash size (pre ++ part) r.1 ∧ (∀ j < part.length, granted (i + j) = true) ∧
          (part = ns ∨ granted (i + part.length) = false))
        Never (pushNodes hash granted size i ns bs) := by
  intro ns
  induction ns with
  | nil =>
    intro i pre bs hbs
    refine ⟨[], prefix_refl _, rfl, ?_, by simp, .inl rfl⟩
    rw [append_nil]
    exact hbs
  | cons n ns ih =>
    intro i pre bs hbs
    apply (pushNode_post hpos hbs n).bind
    intro bs' hbs'
    split
    · next hgrant =>
      apply (ih (i + 1) (pre ++ [n]) bs' hbs').imp
      rintro r ⟨part, hpart, hcount, hpushed, hall, hend⟩
      refine ⟨n :: part, cons_prefix_cons.mpr ⟨rfl, hpart⟩, ?_, ?_, ?_, ?_⟩
      · rw [hcount, length_cons]
        omega
      · rw [append_cons]
        exact hpushed
      · intro j hj
        cases j with
        | zero => exact hgrant
        | succ j =>
          have hj' := hall j (by simpa using hj)
          rwa [Nat.add_assoc, Nat.add_comm 1 j] at hj'
      · rcases hend with rfl | hend
        · exact .inl rfl
        · right
          rwa [Nat.add_assoc, Nat.add_comm 1 part.length] at hend
    · next hrefused =>
      refine ⟨[], nil_prefix, rfl, ?_, by simp, ?_⟩
      · rw [append_nil]
        exact hbs
      · right
        simpa using hrefused

variable (hash) (sorter) in
theorem load_post (hpos : 0 < t.size) (hgranted : Granted granted t.size ns.length) :
    Post (fun r => Loaded hash t.size ns r.1 ∧ r.2 = (ns.length, true)) Never
      (load hash sorter granted t ns) := by
  rw [load, if_pos hgranted.1]
  have hpush := pushNodes_post (fun i => granted (.push i)) hpos ns 0 [] _
    (pushed_replicate hash t.size)
  apply hpush.bind
  rintro ⟨bs, pushed⟩ ⟨part, hpart, hcount, hpushed, -, hend⟩
  have hall : part = ns := by
    rcases hend with rfl | hend
    · rfl
    · by_contra hne
      have hlt : part.length < ns.length := by
        apply Nat.lt_of_le_of_ne hpart.length_le
        exact fun heq => hne (hpart.eq_of_length heq)
      rw [Nat.zero_add, hgranted.2 _ hlt] at hend
      cases hend
  subst hall
  rw [Nat.zero_add] at hcount
  dsimp only at hcount hpushed ⊢
  rw [if_pos hcount, hcount]
  have hperm : ((bs.map sorter.sort).flatten).Perm part :=
    (flatten_map_perm fun b _ => sorter.perm b).trans hpushed.perm
  have hrep : Rep { t with total := part.length, datas := some (bs.map sorter.sort) } := by
    apply Rep.of_sorted hpos
    · rw [length_map]
      exact hpushed.length
    · intro b hb
      obtain ⟨c, -, rfl⟩ := mem_map.mp hb
      exact sorter.sorted c
    · exact hperm.length_eq.symm
  refine ⟨⟨hrep, rfl, hperm, ?_⟩, rfl⟩
  intro i b hb n hn
  rw [buckets, Option.getD_some, getElem?_map, Option.map_eq_some_iff] at hb
  obtain ⟨c, hc, rfl⟩ := hb
  exact hpushed.home i c hc n ((sorter.perm c).mem_iff.mp hn)

theorem granted_of_load (h : Post (fun r => r.1.Rep) Never (load hash sorter granted t ns)) :
    0 < t.size ∧ Granted granted t.size ns.length := by
  unfold load at h
  split at h
  · next hbuckets =>
    rcases Nat.eq_zero_or_pos t.size with hzero | hpos
    · -- no bucket: the first node stops the call, and no node leaves no bucket
      exfalso
      cases ns with
      | nil =>
        have hrep : Rep { t with
          total := 0, datas := some ((replicate t.size []).map sorter.sort) } := h
        exact absurd hrep.pos (by rw [hzero]; exact Nat.lt_irrefl 0)
      | cons n ns =>
        rw [pushNodes, pushNode, if_pos hzero] at h
        exact h
    · refine ⟨hpos, hbuckets, ?_⟩
      have hpush := pushNodes_post (fun i => granted (.push i)) hpos ns 0 [] _
        (pushed_replicate hash t.size)
      obtain ⟨⟨bs, pushed⟩, hr, part, hpart, hcount, hpushed, hall, -⟩ := hpush.exists_ok
      rw [hr] at h
      dsimp only at hcount hpushed h
      rw [Nat.zero_add] at hcount
      have hlen : part.length = ns.length := by
        by_contra hne
        have hrep : Rep { t with total := ns.length, datas := some bs } := by
          rw [← hcount] at hne
          simpa only [bind, Except.bind, if_neg hne, post_ok] using h
        have htotal : ns.length = bs.flatten.length := hrep.total
        rw [hpushed.perm.length_eq, nil_append] at htotal
        exact hne htotal.symm
      intro i hi
      have hi' := hall i (by omega)
      rwa [Nat.zero_add] at hi'
  · next hrefused =>
    have hrep : Rep { t with total := ns.length, datas := none } := h
    exact absurd hrep.datas (by simp)

end Table

/-! ## `HashMap` -/

namespace HashMap

variable {K V : Type} [LinearOrder K] [Inhabited K] [Inhabited V] (hash : K → Nat)
  (sorter : Sorter (K × V) Prod.fst) (node : Pod (K × V))

omit [LinearOrder K] [Inhabited K] [Inhabited V] in
def writeTo (t : Table K V) : Except HashError (List UInt8 × Bool) := do
  let ns ← t.allNodes
  let (bytes, written) := writeVector node ns
  .ok (leBytes 8 t.size ++ bytes, written)

/-- The old buckets are gone before the first byte is read, and every `break` leaves the
table as it is then. -/
def readFrom (granted : Request → Bool) (t : Table K V) (is : List UInt8) :
    Except HashError (Table K V × Bool) :=
  match readWord 8 is with
  | none => .ok ({ t with size := partWord 8 t.size is, datas := none }, false)
  | some (size, is) => do
    let (ns, rest) ← readVector node (fun n => granted (.nodes n)) [] is
    match rest with
    | none => .ok ({ t with size, datas := none }, false)
    | some _ => do
      let (t, _, done) ← Table.load hash sorter granted { t with size, datas := none } ns
      .ok (t, done)

omit [LinearOrder K] [Inhabited K] [Inhabited V] in
structure Readable (granted : Request → Bool) (is : List UInt8) (size : Nat)
    (ns : List (K × V)) : Prop where
  stream : ∃ nodes rest, is = leBytes 8 size ++ nodes ∧ node.Image nodes ns rest
  bounds : 0 < size ∧ size < 2 ^ 64
  bytes : ns.length * node.size < 2 ^ 63
  room : 0 < ns.length → granted (.nodes ns.length) = true
  table : Table.Granted granted size ns.length

variable {hash} {sorter} {node} {granted : Request → Bool}

theorem readFrom_post {ns : List (K × V)} (h : Readable node granted is size ns) :
    Post (fun r => Table.Loaded hash size ns r.1 ∧ r.2 = true) Never
      (readFrom hash sorter node granted t is) := by
  obtain ⟨nodes, rest, rfl, himage⟩ := h.stream
  have hread : readVector node (fun n => granted (.nodes n)) [] nodes = .ok (ns, some rest) :=
    readVector_eq_iff.mpr ⟨himage, h.bytes, h.room⟩
  rw [readFrom, readWord_leBytes h.bounds.2]
  apply post_bind_ok hread
  have hload := Table.load_post hash sorter
    (t := { t with size, datas := none }) h.bounds.1 h.table
  apply hload.bind
  rintro ⟨t', pushed, done⟩ ⟨hloaded, hr⟩
  cases hr
  exact ⟨hloaded, rfl⟩

theorem readable_of_readFrom (h : Post (fun r => r.1.Rep) Never
    (readFrom hash sorter node granted t is)) : ∃ size ns, Readable node granted is size ns := by
  have hnone : ∀ {size total : Nat},
      ¬ Table.Rep { size, total, datas := (none : Option (List (List (K × V)))) } :=
    fun hrep => absurd hrep.datas (by simp)
  unfold readFrom at h
  split at h
  · exact absurd h hnone
  · next size nodes hword =>
    obtain ⟨hsize, rfl⟩ := readWord_eq_some_iff.mp hword
    cases hread : readVector node (fun n => granted (.nodes n)) [] nodes with
    | error e =>
      rw [hread] at h
      exact h.elim
    | ok r =>
      obtain ⟨ns, rest⟩ := r
      rw [hread] at h
      cases rest with
      | none => exact absurd h hnone
      | some rest =>
        obtain ⟨himage, hbytes, hroom⟩ := readVector_eq_iff.mp hread
        have hload : Post (fun r => r.1.Rep) Never
            (Table.load hash sorter granted { t with size, datas := none } ns) := by
          cases hl : Table.load hash sorter granted { t with size, datas := none } ns with
          | error e =>
            simp only [bind, Except.bind, hl] at h
            exact h
          | ok r =>
            simp only [bind, Except.bind, hl] at h
            exact h
        obtain ⟨hpos, hgranted⟩ := Table.granted_of_load hload
        exact ⟨size, ns, ⟨nodes, rest, rfl, himage⟩, ⟨hpos, hsize⟩, hbytes, hroom, hgranted⟩

end HashMap

end Helens.Ds
