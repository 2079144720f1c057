import Helens.Lib.Runs
import Helens.Lib.SortedVector
import Mathlib.Algebra.Group.Int.Defs
import Mathlib.Order.Antisymmetrization

/-! The arrays of buckets that `HashMap`, `Dict` and `HashMultimap` are made of: nodes with
a key in vectors that are kept in order, and the rehashing to another number of buckets.
What a node holds beside its key is a parameter. -/

namespace Helens.Ds

open Lib.Runs Lib.SortedVector
open List hiding swapAt

inductive HashError
  | remainderByZero
  | nullDatas
  | outsideBuckets
  | undefinedBasket
  | outsideArray
  | invalidRange
  | invalidFree
  | intOverflow
  | badArrayLength
  deriving DecidableEq

/-! ## Numbers -/

def asInt (n : Nat) : Int := (BitVec.ofNat 32 n).toInt

/-- The conversion to `double`: the nearest number of 53 bits, of two the even one. -/
def asDouble (n : Nat) : Nat :=
  let unit := 2 ^ (n.log2 - 52)
  let quotient := n / unit
  let rest := n % unit
  if unit < 2 * rest ∨ unit = 2 * rest ∧ quotient % 2 = 1 then (quotient + 1) * unit
  else quotient * unit

def addFetch (n m : Nat) : Nat := (n + m) % 2 ^ 64

def subFetch (n m : Nat) : Nat := if m ≤ n then n - m else 2 ^ 64 - (m - n)

/-- `std::min((int)(floor(log2(abs(n))) + 1), 30)`. The logarithm of zero and the absolute value of
the least `int` leave the range of `int`. -/
def basketShift (n : Int) : Except HashError Nat :=
  if n = 0 ∨ n = -2 ^ 31 then .error .undefinedBasket
  else .ok (min (n.natAbs.log2 + 1) 30)

def basket (n : Int) : Except HashError Nat := (basketShift n).map fun e => 2 ^ e

theorem addFetch_lt (n m) : addFetch n m < 2 ^ 64 := Nat.mod_lt _ (Nat.two_pow_pos 64)

theorem subFetch_lt {n m : Nat} (h : n < 2 ^ 64) : subFetch n m < 2 ^ 64 := by
  unfold subFetch
  split <;> omega

theorem asInt_of_lt {n : Nat} (h : n < 2 ^ 31) : asInt n = n := by
  have hmod : n % 2 ^ 32 = n := Nat.mod_eq_of_lt (by omega)
  rw [asInt, BitVec.toInt_eq_toNat_of_lt, BitVec.toNat_ofNat, hmod]
  rw [BitVec.toNat_ofNat, hmod]
  omega

theorem basket_post {n : Nat} (hpos : 0 < n) (hne : n ≠ 2 ^ 31) (hlt : n < 2 ^ 32) :
    Post (fun size => ∃ e ≤ 30, size = 2 ^ e) Never (basket (asInt n)) := by
  have htoInt : asInt n = if 2 * n < 2 ^ 32 then (n : Int) else n - 2 ^ 32 := by
    rw [asInt, BitVec.toInt_eq_toNat_cond, BitVec.toNat_ofNat, Nat.mod_eq_of_lt hlt]
    rfl
  have hdefined : ¬ (asInt n = 0 ∨ asInt n = -2 ^ 31) := by
    rw [htoInt]
    split <;> omega
  rw [basket, basketShift, if_neg hdefined]
  exact ⟨_, Nat.min_le_right _ _, rfl⟩

section
variable {α κ : Type} [LinearOrder κ] (key : α → κ)

/-- `SortLast` of a whole array, whose size is an `int`. -/
def sortLast (l : List α) : List α :=
  if asInt l.length ≤ 1 then l else sortLastLoop key l ((asInt l.length).toNat - 1)

variable {key}

theorem sortLast_eq (hl : Sorted key l) (x) (hlt : l.length + 1 < 2 ^ 31) :
    sortLast key (l ++ [x]) = placed key l x := by
  have hint : asInt (l ++ [x]).length = (l.length + 1 : Nat) := by
    rw [length_append, length_singleton]
    exact asInt_of_lt hlt
  rw [sortLast, hint]
  split
  · next hle =>
    have hnil : l = [] := length_eq_zero_iff.mp (by omega)
    rw [hnil]
    rfl
  · have hlen : ((l.length + 1 : Nat) : Int).toNat - 1 = l.length := by omega
    rw [hlen, sortLastLoop_eq hl x [], append_nil]

theorem length_sortLast (l : List α) : (sortLast key l).length = l.length := by
  unfold sortLast
  split
  · rfl
  · exact length_sortLastLoop _ _

theorem sortLast_of_limit (hlen : l.length = 2 ^ 31) : sortLast key l = l := by
  have hint : asInt l.length = -2 ^ 31 := by
    rw [hlen]
    decide
  rw [sortLast, hint]
  rfl

end

/-! ## `SortLast` and `BinarySearch` -/

section
variable {α : Type} [Preorder α]

abbrev classOf : α → Antisymmetrization α (· ≤ ·) := toAntisymmetrization (· ≤ ·)

theorem classOf_eq {a b : α} : classOf a = classOf b ↔ a ≤ b ∧ b ≤ a := Quotient.eq

variable [Std.Total fun a b : α => a ≤ b] [DecidableLE α] [DecidableLT α]

/-- `<` of a total preorder is a strict weak order. -/
theorem sorts_last_and_finds (data : List α) (h : data.dropLast.Pairwise (· ≤ ·))
    (hlt : data.length < 2 ^ 31) :
    (sortLast classOf data).Pairwise (· ≤ ·) ∧ (sortLast classOf data).Perm data ∧
    (∀ a, (sortLast classOf data).filter (fun b => b ≤ a ∧ a ≤ b) =
      data.filter fun b => b ≤ a ∧ a ≤ b) ∧
    ∀ l : List α, l.Pairwise (· ≤ ·) → ∀ v, match search classOf l (classOf v) with
      | some i => ∃ y, l[i]? = some y ∧ y ≤ v ∧ v ≤ y
      | none => ∀ y ∈ l, ¬ (y ≤ v ∧ v ≤ y) := by
  rw [← and_assoc, ← and_assoc]
  refine ⟨?_, fun l hsorted v => ?_⟩
  · rcases eq_nil_or_concat' data with rfl | ⟨l, x, rfl⟩
    · have hnil : sortLast classOf ([] : List α) = [] :=
        if_pos (by decide : asInt 0 ≤ 1)
      simp [hnil]
    · rw [dropLast_concat] at h
      have hsorted : Sorted classOf l := h
      rw [sortLast_eq hsorted x (by simpa using hlt)]
      refine ⟨⟨placed_sorted hsorted x, placed_perm l x⟩, fun a => ?_⟩
      simpa only [classOf_eq] using placed_stable classOf l x (classOf a)
  · split
    · next i hi =>
      obtain ⟨y, hy, heq⟩ := key_of_search hi
      exact ⟨y, hy, classOf_eq.mp heq⟩
    · next hnone =>
      intro y hy heq
      have hs : Sorted classOf l := hsorted
      exact hs.search_eq_none_iff.mp hnone (mem_map.mpr ⟨y, hy, classOf_eq.mpr heq⟩)

theorem sorts_last_and_finds_two : (sortLast classOf [1, 3, 2]).Pairwise (· ≤ ·) :=
  (sorts_last_and_finds [1, 3, 2] (by decide) (by decide)).1

end

/-! ## The code -/

structure Table (K β : Type) where
  size : Nat
  total : Nat
  datas : Option (List (List (K × β)))
  deriving DecidableEq

namespace Table

variable {K β : Type} [LinearOrder K] (hash : K → Nat) (sorter : Sorter (K × β) Prod.fst)

def withBuckets (size : Nat) : Table K β :=
  { size, total := 0, datas := some (List.replicate size []) }

def new (size : Nat) : Except HashError (Table K β) := do
  let size ← basket (asInt size)
  .ok (withBuckets size)

/-- `getRate() > 16`. The quotient of two `double` is rounded to `float`: what is above 16
after both roundings is above 16 + 2⁻²⁰ + 2⁻⁴⁹. -/
def needRehash (t : Table K β) : Bool :=
  decide (asDouble t.size * (16 * 2 ^ 49 + 2 ^ 29 + 1) < asDouble t.total * 2 ^ 49)

def bucketAt (t : Table K β) (pos : Nat) : Except HashError (List (K × β)) :=
  match t.datas with
  | none => .error .nullDatas
  | some bs =>
    match bs[pos]? with
    | none => .error .outsideBuckets
    | some b => .ok b

def nodeAt (b : List (K × β)) (i : Nat) : Except HashError (K × β) :=
  match b[i]? with
  | none => .error .outsideBuckets
  | some n => .ok n

/-- The place of a key: the bucket `hashvalue % m_size`, and where `BinarySearch` finds the
key in it. -/
def locate (t : Table K β) (k : K) : Except HashError (Nat × List (K × β) × Option Nat) :=
  if t.size = 0 then .error .remainderByZero
  else do
    let pos := hash k % 2 ^ 32 % t.size
    let b ← t.bucketAt pos
    .ok (pos, b, search Prod.fst b k)

def allBuckets (t : Table K β) : Except HashError (List (List (K × β))) :=
  if t.size = 0 then .ok []
  else
    match t.datas with
    | none => .error .nullDatas
    | some bs => if bs.length < t.size then .error .outsideBuckets else .ok (bs.take t.size)

def allNodes (t : Table K β) : Except HashError (List (K × β)) := t.allBuckets.map List.flatten

def pushNode (size : Nat) (bs : List (List (K × β))) (n : K × β) :
    Except HashError (List (List (K × β))) :=
  if size = 0 then .error .remainderByZero
  else
    match bs[hash n.1 % size]? with
    | none => .error .outsideBuckets
    | some b => .ok (bs.set (hash n.1 % size) (b ++ [n]))

def distribute (size : Nat) (ns : List (K × β)) : Except HashError (List (List (K × β))) := do
  let bs ← ns.foldlM (pushNode hash size) (List.replicate size [])
  .ok (bs.map sorter.sort)

def rehashUnlock (t : Table K β) : Except HashError (Table K β) := do
  let size ← basket (asInt t.total)
  if size = t.size then .ok t
  else
    let ns ← t.allNodes
    let bs ← distribute hash sorter size ns
    .ok { t with size, datas := some bs }

def rehash (t : Table K β) : Except HashError (Table K β) :=
  if t.needRehash then t.rehashUnlock hash sorter else .ok t

def autoRehash (t : Table K β) : Except HashError (Table K β) :=
  if t.needRehash then t.rehash hash sorter else .ok t

def addNode (t : Table K β) (pos : Nat) (b : List (K × β)) (n : K × β) : Table K β :=
  { t with total := addFetch t.total 1, datas := t.datas.map (·.set pos (sortLast Prod.fst
    (b ++ [n]))) }

def writeNode (t : Table K β) (pos : Nat) (b : List (K × β)) (i : Nat) (v : β) : Table K β :=
  { t with datas := t.datas.map (·.set pos (b.modify i fun n => (n.1, v))) }

def removeNode (t : Table K β) (pos : Nat) (b : List (K × β)) (i : Nat) : Table K β :=
  let swapped := if 1 < b.length then swapAt b i (b.length - 1) else b
  { t with
    total := subFetch t.total 1
    datas := t.datas.map (·.set pos (sorter.sort swapped.dropLast)) }

/-! ## The invariant -/

def buckets (t : Table K β) : List (List (K × β)) := t.datas.getD []

def nodes (t : Table K β) : List (K × β) := t.buckets.flatten

structure Rep (t : Table K β) : Prop where
  pos : 0 < t.size
  datas : t.datas = some t.buckets
  length : t.buckets.length = t.size
  sorted : ∀ b ∈ t.buckets, Sorted Prod.fst b
  total : t.total = t.nodes.length

structure Layout (size : Nat) (bs : List (List (K × β))) : Prop where
  length : bs.length = size
  strict : ∀ (i : Nat) b, bs[i]? = some b → Strict Prod.fst b
  home : ∀ (i : Nat) b, bs[i]? = some b → ∀ n ∈ b, hash n.1 % size = i

structure Inv (t : Table K β) : Prop where
  size : ∃ e ≤ 30, t.size = 2 ^ e
  datas : t.datas = some t.buckets
  layout : Layout hash t.size t.buckets
  total : t.total = t.nodes.length

inductive Located (t : Table K β) (k : K) : Nat × List (K × β) × Option Nat → Prop
  | absent {b : List (K × β)} (hb : t.buckets[hash k % t.size]? = some b)
      (hk : k ∉ t.nodes.map Prod.fst) : Located t k (hash k % t.size, b, none)
  | present {b : List (K × β)} {i : Nat} {v : β} (hb : t.buckets[hash k % t.size]? = some b)
      (hi : b[i]? = some (k, v)) : Located t k (hash k % t.size, b, some i)

variable {hash} {sorter} {t : Table K β} {k : K}

theorem Inv.pos (h : t.Inv hash) : 0 < t.size := by
  obtain ⟨e, -, he⟩ := h.size
  rw [he]
  exact Nat.two_pow_pos e

theorem Inv.rep (h : t.Inv hash) : t.Rep := by
  refine ⟨h.pos, h.datas, h.layout.length, ?_, h.total⟩
  intro b hb
  obtain ⟨i, hi⟩ := getElem?_of_mem hb
  exact (h.layout.strict i b hi).sorted

theorem Inv.mod_mod (h : t.Inv hash) (n) : n % 2 ^ 32 % t.size = n % t.size := by
  obtain ⟨e, hle, he⟩ := h.size
  rw [he]
  exact Nat.mod_mod_of_dvd n (Nat.pow_dvd_pow 2 (by omega))

theorem Inv.exists_bucket (h : t.Inv hash) (k) : ∃ b, t.buckets[hash k % t.size]? = some b := by
  have hlt : hash k % t.size < t.buckets.length := by
    rw [h.layout.length]
    exact Nat.mod_lt _ h.pos
  exact ⟨_, getElem?_eq_getElem hlt⟩

variable {b : List (K × β)} {n : K × β} {p : Nat} {i : Nat} {bs : List (List (K × β))} {size : Nat}
    {v : β}

omit [LinearOrder K] in
theorem mem_nodes_of_bucket (hb : t.buckets[p]? = some b) (hn : n ∈ b) : n ∈ t.nodes :=
  mem_flatten.mpr ⟨b, mem_of_getElem? hb, hn⟩

theorem Inv.mem_bucket (h : t.Inv hash) (hb : t.buckets[hash n.1 % t.size]? = some b)
    (hn : n ∈ t.nodes) : n ∈ b := by
  obtain ⟨c, hc, hnc⟩ := mem_flatten.mp hn
  obtain ⟨i, hi⟩ := getElem?_of_mem hc
  rw [h.layout.home i c hi n hnc, hi] at hb
  cases hb
  exact hnc

omit [LinearOrder K] in
theorem nodeAt_eq (hi : b[i]? = some n) : nodeAt b i = .ok n := by
  rw [nodeAt, hi]

theorem locate_eq (hpos : 0 < t.size) (hdatas : t.datas = some bs)
    (hb : bs[hash k % 2 ^ 32 % t.size]? = some b) :
    t.locate hash k = .ok (hash k % 2 ^ 32 % t.size, b, search Prod.fst b k) := by
  have hbucket : t.bucketAt (hash k % 2 ^ 32 % t.size) = .ok b := by
    rw [bucketAt, hdatas]
    dsimp only
    rw [hb]
  rw [locate, if_neg (Nat.ne_of_gt hpos)]
  dsimp only
  rw [hbucket]
  rfl

theorem locate_post (h : t.Inv hash) (k) : Post (Located hash t k) Never (t.locate hash k) := by
  obtain ⟨b, hb⟩ := h.exists_bucket k
  rw [locate_eq h.pos h.datas ((h.mod_mod _).symm ▸ hb), h.mod_mod, post_ok]
  have hstrict := h.layout.strict _ b hb
  cases hs : search Prod.fst b k with
  | none =>
    apply Located.absent hb
    intro hk
    obtain ⟨n, hn, rfl⟩ := mem_map.mp hk
    exact (search_eq_none_iff hstrict).mp hs (mem_map_of_mem (h.mem_bucket hb hn))
  | some i =>
    obtain ⟨⟨k', v⟩, hi, rfl⟩ := (search_eq_some_iff hstrict).mp hs
    exact Located.present hb hi

theorem Inv.nodup (h : t.Inv hash) : (t.nodes.map Prod.fst).Nodup := by
  have hpair : ∀ (i j : Nat) b c, i < j → t.buckets[i]? = some b → t.buckets[j]? = some c →
      ∀ n ∈ b, ∀ n' ∈ c, n.1 ≠ n'.1 := by
    intro i j b c hij hb hc n hn n' hn' heq
    have hi := h.layout.home i b hb n hn
    have hj := h.layout.home j c hc n' hn'
    rw [heq] at hi
    omega
  rw [nodes, map_flatten, nodup_flatten]
  constructor
  · intro l hl
    obtain ⟨b, hb, rfl⟩ := mem_map.mp hl
    obtain ⟨i, hi⟩ := getElem?_of_mem hb
    exact (h.layout.strict i b hi).nodup
  · rw [pairwise_map, pairwise_iff_getElem]
    intro i j hi hj hij k hki hkj
    obtain ⟨n, hn, rfl⟩ := mem_map.mp hki
    obtain ⟨n', hn', heq⟩ := mem_map.mp hkj
    exact hpair i j _ _ hij (getElem?_eq_getElem hi) (getElem?_eq_getElem hj) n hn n' hn'
      heq.symm

/-! ## Writing one bucket -/

omit [LinearOrder K] in
theorem buckets_exchange (t : Table K β) (p total : Nat) (b' : List (K × β)) :
    buckets { t with total, datas := t.datas.map (·.set p b') } = t.buckets.set p b' := by
  unfold buckets
  cases t.datas with
  | none => rfl
  | some bs => rfl

theorem Rep.exchange (h : t.Rep) {p total : Nat} {b b' : List (K × β)}
    (hb : t.buckets[p]? = some b) (hsorted : Sorted Prod.fst b')
    (htotal : total + b.length = t.total + b'.length) :
    Rep { t with total, datas := t.datas.map (·.set p b') } ∧ ∃ rest, t.nodes.Perm (b ++ rest) ∧
        (nodes { t with total, datas := t.datas.map (·.set p b') }).Perm (b' ++ rest) := by
  have hdatas : t.datas.map (·.set p b') = some (t.buckets.set p b') := by
    rw [h.datas]
    rfl
  obtain ⟨rest, hold, hnew⟩ := flatten_set_perm hb
  rw [hdatas]
  refine ⟨⟨h.pos, rfl, ?_, ?_, ?_⟩, rest, hold, hnew b'⟩
  · exact length_set.trans h.length
  · intro c hc
    rcases mem_or_eq_of_mem_set hc with hc | rfl
    · exact h.sorted c hc
    · exact hsorted
  · have hlen := (hnew b').length_eq
    have hlen' := hold.length_eq
    rw [length_append] at hlen hlen'
    have ht := h.total
    rw [nodes, hlen'] at ht
    show total = (t.buckets.set p b').flatten.length
    omega

theorem Inv.of_rep (h : t.Inv hash) {t' : Table K β} (hrep : t'.Rep) (hsize : t'.size = t.size)
    {b b' : List (K × β)} (hb : t.buckets[p]? = some b) (hset : t'.buckets = t.buckets.set p b')
    (hstrict : Strict Prod.fst b') (hhome : ∀ n ∈ b', hash n.1 % t.size = p) : t'.Inv hash := by
  refine ⟨hsize ▸ h.size, hrep.datas, ⟨hrep.length, ?_, ?_⟩, hrep.total⟩
  · intro i c hc
    rw [hset] at hc
    rcases (getElem?_set_iff hb b').mp hc with ⟨rfl, rfl⟩ | ⟨-, hc⟩
    · exact hstrict
    · exact h.layout.strict i c hc
  · intro i c hc
    rw [hset] at hc
    rw [hsize]
    rcases (getElem?_set_iff hb b').mp hc with ⟨rfl, rfl⟩ | ⟨-, hc⟩
    · exact hhome
    · exact h.layout.home i c hc

/-! ## The operations -/

variable (hash) in
theorem withBuckets_inv {n : Nat} (hn : ∃ e ≤ 30, n = 2 ^ e) :
    (withBuckets n : Table K β).Inv hash ∧ (withBuckets n : Table K β).nodes = [] := by
  have hget : ∀ (i : Nat) b, (replicate n ([] : List (K × β)))[i]? = some b → b = [] := by
    intro i b hb
    exact eq_of_mem_replicate (mem_of_getElem? hb)
  have hnil : (replicate n ([] : List (K × β))).flatten = [] := by simp
  refine ⟨⟨hn, rfl, ⟨length_replicate, ?_, ?_⟩, ?_⟩, hnil⟩
  · intro i b hb
    rw [hget i b hb]
    exact List.Pairwise.nil
  · intro i b hb
    rw [hget i b hb]
    exact fun n hn => absurd hn not_mem_nil
  · rw [nodes, buckets, withBuckets, Option.getD_some, hnil]
    rfl

variable (hash) in
theorem new_post (hpos : 0 < size) (hne : size ≠ 2 ^ 31) (hlt : size < 2 ^ 32) :
    Post (fun t : Table K β => t.Inv hash ∧ t.nodes = []) Never (new size) :=
  (basket_post hpos hne hlt).bind fun _ hn => withBuckets_inv hash hn

theorem Rep.bucket_length_le (h : t.Rep) (hb : t.buckets[p]? = some b) : b.length ≤ t.total := by
  obtain ⟨rest, hperm, -⟩ := flatten_set_perm hb
  rw [h.total, nodes, hperm.length_eq, length_append]
  exact Nat.le_add_right _ _

theorem perm_cons_placed (b : List (K × β)) (n : K × β) : (placed Prod.fst b n).Perm (n :: b) :=
  (placed_perm b n).trans (perm_append_singleton _ _)

theorem Rep.sortLast_eq (h : t.Rep) (hb : t.buckets[p]? = some b) (hlt : t.total + 1 < 2 ^ 31)
    (n) : sortLast Prod.fst (b ++ [n]) = placed Prod.fst b n := by
  have hlen := h.bucket_length_le hb
  exact Ds.sortLast_eq (h.sorted b (mem_of_getElem? hb)) n (by omega)

theorem Rep.addNode (h : t.Rep) (hb : t.buckets[p]? = some b) (hlt : t.total + 1 < 2 ^ 31)
    (n : K × β) : (t.addNode p b n).Rep ∧ (t.addNode p b n).nodes.Perm (n :: t.nodes) := by
  have hsorted := h.sorted b (mem_of_getElem? hb)
  have hplaced := perm_cons_placed b n
  have htotal : addFetch t.total 1 + b.length = t.total + (placed Prod.fst b n).length := by
    rw [hplaced.length_eq, length_cons, addFetch, Nat.mod_eq_of_lt (by omega)]
    omega
  rw [Table.addNode, h.sortLast_eq hb hlt]
  obtain ⟨hrep, rest, hold, hnew⟩ := h.exchange hb (placed_sorted hsorted n) htotal
  exact ⟨hrep, (hnew.trans (hplaced.append_right rest)).trans (hold.symm.cons _)⟩

theorem addNode_inv (h : t.Inv hash) (hb : t.buckets[hash k % t.size]? = some b)
    (hk : k ∉ t.nodes.map Prod.fst) (hlt : t.total + 1 < 2 ^ 31) (v : β) :
    (t.addNode (hash k % t.size) b (k, v)).Inv hash ∧
      (t.addNode (hash k % t.size) b (k, v)).nodes.Perm ((k, v) :: t.nodes) := by
  obtain ⟨hrep, hnodes⟩ := h.rep.addNode hb hlt (k, v)
  have hkb : k ∉ b.map Prod.fst := by
    intro hin
    obtain ⟨n, hn, rfl⟩ := mem_map.mp hin
    exact hk (mem_map_of_mem (mem_nodes_of_bucket hb hn))
  have hset : (t.addNode (hash k % t.size) b (k, v)).buckets =
      t.buckets.set (hash k % t.size) (placed Prod.fst b (k, v)) := by
    rw [addNode, buckets_exchange, h.rep.sortLast_eq hb hlt]
  refine ⟨h.of_rep hrep rfl hb hset (placed_strict (h.layout.strict _ b hb) hkb) ?_, hnodes⟩
  intro n hn
  rcases mem_cons.mp ((perm_cons_placed b (k, v)).mem_iff.mp hn) with rfl | hn
  · rfl
  · exact h.layout.home _ b hb n hn

omit [LinearOrder K] in
theorem modify_eq_set (hi : b[i]? = some (k, v)) (v') :
    (b.modify i fun n => (n.1, v')) = b.set i (k, v') := by
  rw [modify_eq_set_getElem?, hi]
  rfl

omit [LinearOrder K] in
theorem keys_set (hi : b[i]? = some (k, v)) (v') :
    (b.set i (k, v')).map Prod.fst = b.map Prod.fst := by
  rw [map_set]
  apply set_eq_self
  rw [getElem?_map, hi]
  rfl

theorem Rep.writeNode (h : t.Rep) {p i : Nat} (hb : t.buckets[p]? = some b)
    (hi : b[i]? = some (k, v)) (v') :
    (t.writeNode p b i v').Rep ∧ ∃ rest, t.nodes.Perm ((k, v) :: rest) ∧
      (t.writeNode p b i v').nodes.Perm ((k, v') :: rest) := by
  have hsorted : Sorted Prod.fst (b.set i (k, v')) := by
    have hold := h.sorted b (mem_of_getElem? hb)
    rw [Sorted, ← pairwise_map (f := Prod.fst) (R := (· ≤ ·))] at hold ⊢
    rw [keys_set hi]
    exact hold
  rw [Table.writeNode, modify_eq_set hi]
  have htotal : t.total + b.length = t.total + (b.set i (k, v')).length := by
    rw [length_set]
  obtain ⟨hrep, rest, hold, hnew⟩ := h.exchange hb hsorted htotal
  obtain ⟨hlt, hget⟩ := List.getElem?_eq_some_iff.mp hi
  refine ⟨hrep, b.eraseIdx i ++ rest, hold.trans ?_, hnew.trans ?_⟩
  · have hcons := getElem_cons_eraseIdx_perm hlt
    rw [hget] at hcons
    exact hcons.symm.append_right rest
  · exact (set_perm_cons_eraseIdx hlt (k, v')).append_right rest

theorem writeNode_inv (h : t.Inv hash) (hb : t.buckets[hash k % t.size]? = some b)
    (hi : b[i]? = some (k, v)) (v' : β) :
    (t.writeNode (hash k % t.size) b i v').Inv hash ∧ ∃ rest, t.nodes.Perm ((k, v) :: rest) ∧
      (t.writeNode (hash k % t.size) b i v').nodes.Perm ((k, v') :: rest) := by
  obtain ⟨hrep, hnodes⟩ := h.rep.writeNode hb hi v'
  have hset : (t.writeNode (hash k % t.size) b i v').buckets =
      t.buckets.set (hash k % t.size) (b.set i (k, v')) := by
    rw [writeNode, buckets_exchange, modify_eq_set hi]
  have hstrict : Strict Prod.fst (b.set i (k, v')) := by
    have hold := h.layout.strict _ b hb
    rw [Strict, ← pairwise_map (f := Prod.fst) (R := (· < ·))] at hold ⊢
    rw [keys_set hi]
    exact hold
  refine ⟨h.of_rep hrep rfl hb hset hstrict ?_, hnodes⟩
  intro n hn
  have hkey : n.1 ∈ b.map Prod.fst := by
    rw [← keys_set hi v']
    exact mem_map_of_mem hn
  obtain ⟨n', hn', heq⟩ := mem_map.mp hkey
  rw [← heq]
  exact h.layout.home _ b hb n' hn'

omit [LinearOrder K] in
theorem swapped_eq (hi : b[i]? = some n) :
    (if 1 < b.length then swapAt b i (b.length - 1) else b) = swapAt b i (b.length - 1) := by
  split
  · rfl
  · have hi' := (List.getElem?_eq_some_iff.mp hi).1
    have hlen : b.length - 1 = i := by omega
    rw [hlen, swapAt, hi]
    dsimp only
    rw [set_eq_self hi, set_eq_self hi]

variable (sorter) in
theorem perm_cons_sort (hi : b[i]? = some n) :
    (n :: sorter.sort (swapAt b i (b.length - 1)).dropLast).Perm b :=
  ((sorter.perm _).cons n).trans (swapAt_dropLast_perm hi)

variable (sorter) in
theorem Rep.removeNode (h : t.Rep) {p i : Nat} (hb : t.buckets[p]? = some b) (hi : b[i]? = some n) :
    (t.removeNode sorter p b i).Rep ∧ t.nodes.Perm (n :: (t.removeNode sorter p b i).nodes) := by
  have hi' := (List.getElem?_eq_some_iff.mp hi).1
  have hperm := perm_cons_sort sorter hi
  have hlen := hperm.length_eq
  have hle := h.bucket_length_le hb
  rw [List.length_cons] at hlen
  have htotal : subFetch t.total 1 + b.length =
      t.total + (sorter.sort (swapAt b i (b.length - 1)).dropLast).length := by
    rw [subFetch, if_pos (by omega)]
    omega
  rw [Table.removeNode, swapped_eq hi]
  obtain ⟨hrep, rest, hold, hnew⟩ := h.exchange hb (sorter.sorted _) htotal
  refine ⟨hrep, hold.trans ?_⟩
  exact (hperm.symm.append_right rest).trans (hnew.symm.cons _)

variable (sorter) in
theorem removeNode_inv (h : t.Inv hash) (hb : t.buckets[hash k % t.size]? = some b)
    (hi : b[i]? = some (k, v)) :
    (t.removeNode sorter (hash k % t.size) b i).Inv hash ∧
      t.nodes.Perm ((k, v) :: (t.removeNode sorter (hash k % t.size) b i).nodes) := by
  obtain ⟨hrep, hnodes⟩ := h.rep.removeNode sorter hb hi
  have hset : (t.removeNode sorter (hash k % t.size) b i).buckets =
      t.buckets.set (hash k % t.size) (sorter.sort (swapAt b i (b.length - 1)).dropLast) := by
    rw [removeNode, buckets_exchange, swapped_eq hi]
  have hnodup : ((swapAt b i (b.length - 1)).dropLast.map Prod.fst).Nodup := by
    have hall := ((swapAt_dropLast_perm hi).map Prod.fst).nodup_iff.mpr
      (h.layout.strict _ b hb).nodup
    exact (nodup_cons.mp hall).2
  refine ⟨h.of_rep hrep rfl hb hset (sorter.strict hnodup) ?_, hnodes⟩
  intro n hn
  exact h.layout.home _ b hb n ((perm_cons_sort sorter hi).mem_iff.mp (mem_cons_of_mem _ hn))

/-! ## Rehashing -/

theorem Rep.allBuckets_eq (h : t.Rep) : t.allBuckets = .ok t.buckets := by
  rw [allBuckets, if_neg (Nat.ne_of_gt h.pos), h.datas]
  dsimp only
  rw [h.length, if_neg (Nat.lt_irrefl _), ← h.length, take_length]

theorem Rep.allNodes_eq (h : t.Rep) : t.allNodes = .ok t.nodes := by
  rw [allNodes, h.allBuckets_eq]
  rfl

omit [LinearOrder K] in
theorem allNodes_of_size (h : t.size = 0) : t.allNodes = .ok [] := by
  rw [allNodes, allBuckets, if_pos h]
  rfl

structure Pushed (hash : K → Nat) (size : Nat) (ns : List (K × β))
    (bs : List (List (K × β))) : Prop where
  length : bs.length = size
  home : ∀ (i : Nat) b, bs[i]? = some b → ∀ n ∈ b, hash n.1 % size = i
  perm : bs.flatten.Perm ns

omit [LinearOrder K] in
theorem pushNode_post (hpos : 0 < size) (h : Pushed hash size ns bs) (n) :
    Post (Pushed hash size (ns ++ [n])) Never (pushNode hash size bs n) := by
  have hlt : hash n.1 % size < bs.length := by
    rw [h.length]
    exact Nat.mod_lt _ hpos
  obtain ⟨b, hb⟩ : ∃ b, bs[hash n.1 % size]? = some b := ⟨_, getElem?_eq_getElem hlt⟩
  rw [pushNode, if_neg (Nat.ne_of_gt hpos), hb]
  obtain ⟨rest, hold, hnew⟩ := flatten_set_perm hb
  refine ⟨?_, ?_, ?_⟩
  · rw [length_set]
    exact h.length
  · intro i c hc m hm
    rcases (getElem?_set_iff hb (b ++ [n])).mp hc with ⟨rfl, rfl⟩ | ⟨-, hc⟩
    · rcases mem_append.mp hm with hm | hm
      · exact h.home _ b hb m hm
      · rw [mem_singleton.mp hm]
    · exact h.home i c hc m hm
  · apply (hnew (b ++ [n])).trans
    rw [append_assoc]
    have hmove : ([n] ++ rest).Perm (rest ++ [n]) := perm_append_comm
    apply (hmove.append_left b).trans
    rw [← append_assoc]
    exact (hold.symm.trans h.perm).append_right [n]

variable (hash) in
omit [LinearOrder K] in
theorem pushed_replicate (size) :
    Pushed hash size ([] : List (K × β)) (replicate size []) := by
  refine ⟨length_replicate, ?_, ?_⟩
  · intro i b hb
    rw [eq_of_mem_replicate (mem_of_getElem? hb)]
    exact fun n hn => absurd hn not_mem_nil
  · simp

variable (hash) (sorter) in
theorem distribute_post (hpos : 0 < size) (ns) :
    Post (fun bs : List (List (K × β)) => bs.length = size ∧ bs.flatten.Perm ns ∧
        (∀ (i : Nat) b, bs[i]? = some b → Sorted Prod.fst b ∧ ∀ n ∈ b, hash n.1 % size = i))
      Never (distribute hash sorter size ns) := by
  have hloop := post_foldlM (Q := fun _ : HashError => False) (l := ns)
    (P := Pushed hash size) (pushed_replicate hash size) fun pre n bs _ hbs =>
      pushNode_post hpos hbs n
  apply hloop.bind
  intro bs hbs
  refine ⟨?_, ?_, ?_⟩
  · rw [length_map]
    exact hbs.length
  · refine List.Perm.trans ?_ hbs.perm
    exact flatten_map_perm fun b _ => sorter.perm b
  · intro i b hb
    rw [getElem?_map, Option.map_eq_some_iff] at hb
    obtain ⟨c, hc, rfl⟩ := hb
    refine ⟨sorter.sorted c, fun n hn => ?_⟩
    exact hbs.home i c hc n ((sorter.perm c).mem_iff.mp hn)

theorem Layout.of_sorted (hlen : bs.length = size) (hnodup : (bs.flatten.map Prod.fst).Nodup)
    (h : ∀ (i : Nat) b, bs[i]? = some b → Sorted Prod.fst b ∧ ∀ n ∈ b, hash n.1 % size = i) :
    Layout hash size bs := by
  refine ⟨hlen, ?_, fun i b hb => (h i b hb).2⟩
  intro i b hb
  apply (h i b hb).1.strict
  rw [map_flatten] at hnodup
  exact (nodup_flatten.mp hnodup).1 _ (mem_map_of_mem (mem_of_getElem? hb))

omit [LinearOrder K] in
theorem needRehash_pos (h : t.needRehash = true) : 0 < t.total := by
  rcases Nat.eq_zero_or_pos t.total with hzero | hpos
  · rw [needRehash, hzero] at h
    simp [asDouble] at h
  · exact hpos

theorem Rep.of_sorted {size total : Nat} (hpos : 0 < size)
    (hlen : bs.length = size) (hsorted : ∀ b ∈ bs, Sorted Prod.fst b)
    (htotal : total = bs.flatten.length) : Rep { size, total, datas := some bs } :=
  ⟨hpos, rfl, hlen, hsorted, htotal⟩

theorem Rep.rehash_post (h : t.Rep) (hlt : t.total < 2 ^ 31) :
    Post (fun t' => t'.Rep ∧ t'.total = t.total ∧ t'.nodes.Perm t.nodes ∧
        (t' = t ∨ (∃ e ≤ 30, t'.size = 2 ^ e) ∧ ∀ (i : Nat) b, t'.buckets[i]? = some b →
          Sorted Prod.fst b ∧ ∀ n ∈ b, hash n.1 % t'.size = i))
      Never (t.rehash hash sorter) := by
  unfold rehash
  split
  · next hneed =>
    apply (basket_post (needRehash_pos hneed) (by omega) (by omega)).bind
    intro size hsize
    split
    · exact ⟨h, rfl, List.Perm.refl _, .inl rfl⟩
    · rw [h.allNodes_eq]
      have hpos : 0 < size := by
        obtain ⟨e, -, rfl⟩ := hsize
        exact Nat.two_pow_pos e
      apply (distribute_post hash sorter hpos t.nodes).bind
      rintro bs ⟨hlen, hperm, hbs⟩
      refine ⟨Rep.of_sorted hpos hlen ?_ ?_, rfl, hperm, .inr ⟨hsize, hbs⟩⟩
      · intro b hb
        obtain ⟨i, hi⟩ := getElem?_of_mem hb
        exact (hbs i b hi).1
      · exact h.total.trans hperm.length_eq.symm
  · exact ⟨h, rfl, List.Perm.refl _, .inl rfl⟩

theorem rehash_post (h : t.Inv hash) (hlt : t.total < 2 ^ 31) :
    Post (fun t' => t'.Inv hash ∧ t'.total = t.total ∧ t'.nodes.Perm t.nodes) Never
      (t.rehash hash sorter) := by
  apply (h.rep.rehash_post hlt).imp
  rintro t' ⟨hrep, htotal, hperm, hcases⟩
  refine ⟨?_, htotal, hperm⟩
  rcases hcases with rfl | ⟨hsize, hbs⟩
  · exact h
  · have hnodup := ((hperm.map Prod.fst).nodup_iff).mpr h.nodup
    exact ⟨hsize, hrep.datas, Layout.of_sorted hrep.length hnodup hbs, hrep.total⟩

theorem autoRehash_eq (t : Table K β) : t.autoRehash hash sorter = t.rehash hash sorter := by
  unfold autoRehash rehash
  split <;> rfl

/-! ## The limit -/

section
variable {t : Table Nat β}

theorem Inv.bucket_length (h : t.Inv fun _ => 0) {b : List (Nat × β)}
    (hb : t.buckets[0 % t.size]? = some b) : b.length = t.total := by
  obtain ⟨rest, hperm, -⟩ := flatten_set_perm hb
  have hrest : rest = [] := by
    apply eq_nil_iff_forall_not_mem.mpr
    intro n hn
    have hnodup := ((hperm.map Prod.fst).nodup_iff).mp h.nodup
    rw [map_append] at hnodup
    have hmem : n ∈ t.nodes := hperm.mem_iff.mpr (mem_append_right _ hn)
    have hin : n ∈ b := h.mem_bucket hb hmem
    exact disjoint_of_nodup_append hnodup (mem_map_of_mem hin) (mem_map_of_mem hn)
  rw [h.total, nodes, hperm.length_eq, hrest, append_nil]

theorem search_zero {b : List (Nat × β)} (hb : b ≠ []) (hpos : ∀ n ∈ b, 0 < n.1) :
    search Prod.fst (b ++ [(0, v)]) 0 = none := by
  obtain ⟨n, b, rfl⟩ := exists_cons_of_ne_nil hb
  have hfirst : lowerBound Prod.fst (n :: b ++ [(0, v)]) 0 = 0 :=
    lowerBoundLoop_eq_first (fun x _ => Nat.not_lt_zero _) _ _ _
  rw [search, hfirst, cons_append, getElem?_cons_zero]
  dsimp only
  rw [if_pos (hpos n mem_cons_self)]

/-- A key that comes as the 2³¹st node of its bucket is left at the end of it, and is not
found again. -/
theorem locate_addNode_limit (h : t.Inv fun _ => 0) (hpos : ∀ n ∈ t.nodes, 0 < n.1)
    (htotal : t.total = 2 ^ 31 - 1) {b : List (Nat × β)} (hb : t.buckets[0 % t.size]? = some b)
    (v) : ∃ pos b', (t.addNode (0 % t.size) b (0, v)).locate (fun _ => 0) 0 =
      .ok (pos, b', none) := by
  have hlen : b.length = 2 ^ 31 - 1 := (h.bucket_length hb).trans htotal
  have hlast : sortLast Prod.fst (b ++ [(0, v)]) = b ++ [(0, v)] := by
    apply sortLast_of_limit
    rw [length_append, hlen, length_singleton]
    omega
  have hne : b ≠ [] := by
    rintro rfl
    simp at hlen
  have hkeys : ∀ n ∈ b, 0 < n.1 := fun n hn => hpos n (mem_nodes_of_bucket hb hn)
  have hdatas : (t.addNode (0 % t.size) b (0, v)).datas =
      some (t.buckets.set (0 % t.size) (b ++ [(0, v)])) := by
    rw [addNode, hlast, h.datas]
    rfl
  have hbucket : (t.buckets.set (0 % t.size) (b ++ [(0, v)]))[0 % 2 ^ 32 % t.size]? =
      some (b ++ [(0, v)]) :=
    List.getElem?_set_self (List.getElem?_eq_some_iff.mp hb).1
  refine ⟨0 % 2 ^ 32 % t.size, b ++ [(0, v)], ?_⟩
  rw [← search_zero (v := v) hne hkeys]
  exact locate_eq h.pos hdatas hbucket

end

end Table

end Helens.Ds
