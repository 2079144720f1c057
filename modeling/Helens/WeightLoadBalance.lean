import Mathlib.Algebra.Order.Ring.Int
import Mathlib.Data.List.AList
import Helens.Lib.Runs
import Helens.Lib.Shares
import Helens.Lib.SortedVector

/-! `WeightLoadBalance`: an item is chosen by the place of a number among the partial sums of the
weights, and from there on the first connected item is taken. Connections and weights may change
between calls. -/

namespace Helens.WeightLoadBalance

open Lib.Runs Lib.Shares Lib.SortedVector List

variable {I : Type}

/-! ## `load_balance.cc` -/

structure World (I : Type) where
  getId : I → Nat
  getWeight : I → Int
  isValid : I → Bool

/-- A sum that is no `int64_t`, a remainder by zero, or an assertion that fails. -/
inductive Failure
  | overflow
  | divideByZero
  | assertion
  deriving DecidableEq

structure Balance (I : Type) where
  datas : AList (fun _ : Nat => I) := ∅
  lastInitTime : Nat := 0
  items : List I := []
  weights : List Int := []

def toUInt64 (x : Int) : Nat := (x % 2 ^ 64).toNat

/-- The loop of `initNolock` that adds up the weights. -/
def partialSums : Int → List Int → Except Failure (List Int)
  | _, [] => .ok []
  | total, w :: ws =>
    if -2 ^ 63 ≤ total + w ∧ total + w < 2 ^ 63 then
      (partialSums (total + w) ws).map fun sums => (total + w) :: sums
    else .error .overflow

namespace Balance

def initNolock (world : World I) (s : Balance I) : Except Failure (Balance I) :=
  let items := (s.datas.entries.map Sigma.snd).filter world.isValid
  (partialSums 0 (items.map world.getWeight)).map fun weights => { s with items, weights }

def add (world : World I) (v : I) (s : Balance I) : Except Failure (Balance I) :=
  initNolock world { s with datas := s.datas.insert (world.getId v) v }

def del (world : World I) (v : I) (s : Balance I) : Except Failure (Balance I) :=
  initNolock world { s with datas := s.datas.erase (world.getId v) }

/-- The loop of `update` that removes items, which go into `dels`. -/
def remove : List (Nat × Option I) → AList (fun _ : Nat => I) →
    List (Nat × Option I) × AList (fun _ : Nat => I)
  | [], datas => ([], datas)
  | (id, item) :: dels, datas =>
    match datas.lookup id with
    | none =>
      let (dels, datas) := remove dels datas
      ((id, item) :: dels, datas)
    | some found =>
      let (dels, datas) := remove dels (datas.erase id)
      ((id, some found) :: dels, datas)

def update (world : World I) (adds : List (Nat × I)) (dels : List (Nat × Option I))
    (s : Balance I) : Except Failure (List (Nat × Option I) × Balance I) :=
  let (dels, datas) := remove dels s.datas
  let datas := adds.foldl (fun datas e => datas.insert e.1 e.2) datas
  (initNolock world { s with datas }).map fun s => (dels, s)

def set (world : World I) (vs : List I) (s : Balance I) : Except Failure (Balance I) :=
  initNolock world { s with datas := vs.foldl (fun datas v => datas.insert (world.getId v) v) ∅ }

def checkInit (ts : Nat) (world : World I) (s : Balance I) : Except Failure (Balance I) :=
  if toUInt64 (ts - s.lastInitTime) > 500 then
    (s.initNolock world).map fun s => { s with lastInitTime := ts }
  else .ok s

/-- `getIdx`, with what `rand()` would give. -/
def getIdx (v rand : Nat) (s : Balance I) : Except Failure Int :=
  match s.weights.getLast? with
  | none => .ok (-1)
  | some total =>
    if toUInt64 total = 0 then .error .divideByZero
    else
      let dis := (if v = 2 ^ 64 - 1 then rand else v) % toUInt64 total
      let it := upperBound toUInt64 s.weights dis
      if it = s.weights.length then .error .assertion
      -- the distance as an `int32_t`
      else .ok (Int.bmod it (2 ^ 32))

/-- The first connected item from `idx` on, and from the start after the end. -/
def probe (world : World I) (idx : Int) (items : List I) : Option I :=
  (List.range items.length).findSome? fun i : Nat =>
    (items[toUInt64 (idx + i) % items.length]?).filter world.isValid

def choose (world : World I) (v rand : Nat) (s : Balance I) : Except Failure (Option I) :=
  (s.getIdx v rand).map fun idx => if idx = -1 then none else probe world idx s.items

def get (ts : Nat) (world : World I) (v rand : Nat) (s : Balance I) :
    Except Failure (Option I × Balance I) := do
  let s ← s.checkInit ts world
  let item ← s.choose world v rand
  return (item, s)

end Balance

/-! ## Adding up -/

/-- The weights that the items had when they were added up. -/
structure Weighed (s : Balance I) (ws : List Nat) : Prop where
  items : s.items.length = ws.length
  length : s.weights.length = ws.length
  sums : ∀ i < ws.length, s.weights[i]? = some ((ws.take (i + 1)).sum : Int)
  positive : ∀ w ∈ ws, 1 ≤ w
  total : ws.sum < 2 ^ 63

/-- The connected items have weights from one on, with a sum that is an `int64_t`, and an
`int32_t` can number them. -/
structure Suits (world : World I) (items : List I) : Prop where
  positive : ∀ item ∈ items, 1 ≤ world.getWeight item
  total : (items.map world.getWeight).sum < 2 ^ 63
  few : items.length ≤ 2 ^ 31

theorem toUInt64_of_lt {n : Nat} (h : n < 2 ^ 64) : toUInt64 n = n := by
  rw [toUInt64]
  omega

theorem partialSums_eq (ws : List Nat) (total) (h : total + ws.sum < 2 ^ 63) :
    ∃ sums, partialSums total (ws.map Nat.cast) = .ok sums ∧ sums.length = ws.length ∧
      ∀ i < ws.length, sums[i]? = some ((total + (ws.take (i + 1)).sum : Nat) : Int) := by
  induction ws generalizing total with
  | nil => exact ⟨[], rfl, rfl, fun i hi => absurd hi (Nat.not_lt_zero i)⟩
  | cons w ws ih =>
    rw [sum_cons] at h
    obtain ⟨sums, heq, hlength, hsums⟩ := ih (total + w) (by omega)
    refine ⟨((total + w : Nat) : Int) :: sums, ?_, congrArg Nat.succ hlength, ?_⟩
    · rw [map_cons, partialSums, if_pos (by omega), ← Int.natCast_add, heq]
      rfl
    · intro i hi
      cases i with
      | zero => simp
      | succ i =>
        rw [getElem?_cons_succ, hsums i (Nat.lt_of_succ_lt_succ hi), take_succ_cons,
          sum_cons, Nat.add_assoc]

theorem cast_sum (ws : List Nat) : ((ws.sum : Nat) : Int) = (ws.map Nat.cast).sum := by
  induction ws with
  | nil => rfl
  | cons w ws ih => rw [sum_cons, Int.natCast_add, ih, map_cons, sum_cons]

theorem map_getWeight {world : World I} {items : List I}
    (h : ∀ item ∈ items, 1 ≤ world.getWeight item) :
    items.map world.getWeight =
      (items.map fun item => (world.getWeight item).toNat).map Nat.cast := by
  rw [map_map]
  apply map_congr_left
  intro item hitem
  have hpositive := h item hitem
  exact (Int.toNat_of_nonneg (by omega)).symm

def Balance.valid (world : World I) (s : Balance I) : List I :=
  (s.datas.entries.map Sigma.snd).filter world.isValid

theorem initNolock_weighed (world : World I) (s : Balance I)
    (hpositive : ∀ item ∈ s.valid world, 1 ≤ world.getWeight item)
    (htotal : ((s.valid world).map world.getWeight).sum < 2 ^ 63) :
    ∃ s', s.initNolock world = .ok s' ∧ s'.items = s.valid world ∧ s'.datas = s.datas ∧
      Weighed s' ((s.valid world).map fun item => (world.getWeight item).toNat) := by
  generalize hws : (s.valid world).map (fun item => (world.getWeight item).toNat) = ws
  have hmap : (s.valid world).map world.getWeight = ws.map Nat.cast := by
    rw [← hws]
    exact map_getWeight hpositive
  have hsum : ws.sum < 2 ^ 63 := by
    rw [hmap, ← cast_sum] at htotal
    omega
  obtain ⟨sums, heq, hlength, hsums⟩ := partialSums_eq ws 0 (by omega)
  refine ⟨{ s with items := s.valid world, weights := sums }, ?_, rfl, rfl, ?_, hlength, ?_, ?_,
    hsum⟩
  · have hsums : partialSums 0 ((s.valid world).map world.getWeight) = .ok sums := by
      rw [hmap]
      exact heq
    exact congrArg (Except.map _) hsums
  · rw [← hws, length_map]
  · intro i hi
    rw [hsums i hi, Nat.zero_add]
  · intro w hw
    rw [← hws] at hw
    obtain ⟨item, hitem, rfl⟩ := mem_map.mp hw
    have h := hpositive item hitem
    omega

/-! ## Choosing -/

variable {s : Balance I} {ws : List Nat}

theorem Weighed.key_eq (h : Weighed s ws) {i : Nat} {x : Int} (hx : s.weights[i]? = some x) :
    toUInt64 x = (ws.take (i + 1)).sum := by
  have hi := (List.getElem?_eq_some_iff.mp hx).1
  rw [h.sums i (h.length ▸ hi)] at hx
  obtain rfl := Option.some.inj hx
  have hle := sum_take_le ws (i + 1)
  have htotal := h.total
  exact toUInt64_of_lt (by omega)

theorem Weighed.sorted (h : Weighed s ws) : Sorted toUInt64 s.weights := by
  apply pairwise_iff_getElem.mpr
  intro i j hi hj hij
  rw [h.key_eq (getElem?_eq_getElem hi), h.key_eq (getElem?_eq_getElem hj)]
  exact sum_take_mono ws (by omega)

theorem Weighed.getLast (h : Weighed s ws) (hne : ws ≠ []) :
    s.weights.getLast? = some (ws.sum : Int) := by
  have hpos := length_pos_iff.mpr hne
  rw [getLast?_eq_getElem?, h.length, h.sums _ (by omega), Nat.sub_add_cancel hpos,
    take_length]

theorem Weighed.sum_pos (h : Weighed s ws) (hne : ws ≠ []) : 0 < ws.sum := by
  obtain ⟨w, hw⟩ := exists_mem_of_ne_nil ws hne
  have hle := le_sum_of_mem hw
  have hone := h.positive w hw
  omega

/-- The index is that of the share that the number is in, as an `int32_t`. -/
theorem Weighed.getIdx_eq (h : Weighed s ws) (hne : ws ≠ []) (v rand) :
    ∃ i, InShare ws i ((if v = 2 ^ 64 - 1 then rand else v) % ws.sum) ∧
      s.getIdx v rand = .ok (Int.bmod i (2 ^ 32)) := by
  have hpos := h.sum_pos hne
  have htotal := h.total
  have hkey : toUInt64 ws.sum = ws.sum := toUInt64_of_lt (by omega)
  unfold Balance.getIdx
  rw [h.getLast hne]
  dsimp only
  rw [hkey, if_neg hpos.ne']
  have hdis := Nat.mod_lt (if v = 2 ^ 64 - 1 then rand else v) hpos
  generalize (if v = 2 ^ 64 - 1 then rand else v) % ws.sum = dis at hdis ⊢
  have hbounds := upperBound_bounds dis h.sorted
  generalize upperBound toUInt64 s.weights dis = it at hbounds ⊢
  have hit : it < s.weights.length := by
    by_contra hge
    have hlast := h.getLast hne
    rw [getLast?_eq_getElem?] at hlast
    have hlt := hbounds.before _ _ hlast (by
      have hpos := length_pos_iff.mpr hne
      have hlength := h.length
      omega)
    rw [hkey] at hlt
    omega
  refine ⟨it, ⟨?_, ?_⟩, if_neg hit.ne⟩
  · cases it with
    | zero => exact Nat.zero_le _
    | succ j =>
      have hcell := getElem?_eq_getElem (Nat.lt_of_succ_lt hit)
      have hlt := hbounds.before j _ hcell (Nat.lt_succ_self j)
      rw [h.key_eq hcell] at hlt
      omega
  · have hcell := getElem?_eq_getElem hit
    have hle := hbounds.behind it _ hcell (Nat.le_refl it)
    rw [h.key_eq hcell] at hle
    omega

theorem bmod_of_lt {i : Nat} (h : i < 2 ^ 31) : Int.bmod i (2 ^ 32) = i := by
  rw [Int.bmod_def]
  omega

theorem Weighed.getIdx_inShare (h : Weighed s ws) (hne : ws ≠ []) (hfew : ws.length ≤ 2 ^ 31)
    (v rand) :
    ∃ i, InShare ws i ((if v = 2 ^ 64 - 1 then rand else v) % ws.sum) ∧
      s.getIdx v rand = .ok (i : Int) := by
  obtain ⟨i, hshare, heq⟩ := h.getIdx_eq hne v rand
  rw [bmod_of_lt (hshare.lt_length.trans_le hfew)] at heq
  exact ⟨i, hshare, heq⟩

theorem Weighed.getIdx_iff (h : Weighed s ws) (hfew : ws.length ≤ 2 ^ 31) (rand i : Nat)
    (hr : r < ws.sum) : s.getIdx r rand = .ok (i : Int) ↔ InShare ws i r := by
  have hne : ws ≠ [] := by
    rintro rfl
    exact Nat.not_lt_zero r hr
  obtain ⟨j, hshare, heq⟩ := h.getIdx_inShare hne hfew r rand
  have htotal := h.total
  rw [if_neg (by omega), Nat.mod_eq_of_lt hr] at hshare
  rw [heq]
  constructor
  · intro hij
    obtain rfl : j = i := Int.ofNat_inj.mp (Except.ok.inj hij)
    exact hshare
  · intro hi
    rw [hi.unique hshare]

/-! ## Probing -/

theorem exists_round (idx : Nat) (hp : p < n) : ∃ i < n, (idx + i) % n = p := by
  have hidx := Nat.mod_lt idx (Nat.zero_lt_of_lt hp)
  refine ⟨(p + (n - idx % n)) % n, Nat.mod_lt _ (by omega), ?_⟩
  rw [Nat.add_mod_mod]
  have hsplit : idx + (p + (n - idx % n)) = n * (idx / n + 1) + p := by
    have hdiv := Nat.div_add_mod idx n
    rw [Nat.mul_add]
    omega
  rw [hsplit, Nat.mul_add_mod, Nat.mod_eq_of_lt hp]

theorem probe_finds {world : World I} {items : List I} {idx : Nat}
    (hidx : idx + items.length ≤ 2 ^ 64) (hsome : ∃ item ∈ items, world.isValid item = true) :
    ∃ found ∈ items, world.isValid found = true ∧ Balance.probe world idx items = some found := by
  cases hprobe : Balance.probe world idx items with
  | none =>
    obtain ⟨item, hitem, hvalid⟩ := hsome
    obtain ⟨p, hp, rfl⟩ := mem_iff_getElem.mp hitem
    obtain ⟨i, hi, hround⟩ := exists_round idx hp
    have hnone := findSome?_eq_none_iff.mp hprobe i (mem_range.mpr hi)
    have hcast : ((idx : Int) + i) = ((idx + i : Nat) : Int) := (Int.natCast_add idx i).symm
    rw [hcast, toUInt64_of_lt (by omega), hround, getElem?_eq_getElem hp,
      Option.filter_some, if_pos hvalid] at hnone
    cases hnone
  | some found =>
    obtain ⟨i, -, hi⟩ := exists_of_findSome?_eq_some hprobe
    obtain ⟨hcell, hvalid⟩ := Option.filter_eq_some_iff.mp hi
    exact ⟨found, mem_of_getElem? hcell, hvalid, rfl⟩

def Finds (world : World I) (items : List I) (item : Option I) : Prop :=
  (∃ item ∈ items, world.isValid item = true) →
    ∃ found ∈ items, world.isValid found = true ∧ item = some found

theorem Weighed.choose (h : Weighed s ws) (hfew : ws.length ≤ 2 ^ 31) (world v rand) : ∃ item,
    s.choose world v rand = .ok item ∧ Finds world s.items item := by
  by_cases hne : ws = []
  · refine ⟨none, ?_, ?_⟩
    · have hweights : s.weights = [] := eq_nil_of_length_eq_zero (by rw [h.length, hne]; rfl)
      rw [Balance.choose, Balance.getIdx, hweights]
      rfl
    · rintro ⟨item, hitem, -⟩
      have hitems : s.items = [] := eq_nil_of_length_eq_zero (by rw [h.items, hne]; rfl)
      rw [hitems] at hitem
      cases hitem
  · obtain ⟨i, hshare, heq⟩ := h.getIdx_inShare hne hfew v rand
    have hi := hshare.lt_length
    refine ⟨Balance.probe world i s.items, ?_, ?_⟩
    · rw [Balance.choose, heq]
      exact congrArg Except.ok (if_neg (by omega))
    · intro hsome
      exact probe_finds (by rw [h.items]; omega) hsome

/-! ## Calls -/

/-- The weights have been added up for the items, which an `int32_t` can number. -/
def Ready (s : Balance I) : Prop := ∃ ws, Weighed s ws ∧ ws.length ≤ 2 ^ 31

theorem initNolock_ready (world) (s : Balance I) (h : Suits world (s.valid world)) :
    Post Ready Never (s.initNolock world) := by
  obtain ⟨s', heq, -, -, hs'⟩ := initNolock_weighed world s h.positive h.total
  rw [heq]
  exact ⟨_, hs', (length_map _).trans_le h.few⟩

theorem Ready.checkInit (h : Ready s) (ts : Nat) (world : World I)
    (hsuits : toUInt64 (ts - s.lastInitTime) > 500 → Suits world (s.valid world)) :
    Post Ready Never (s.checkInit ts world) := by
  unfold Balance.checkInit
  split
  · next hold =>
    obtain ⟨s', heq, ws, hws, hfew⟩ := (initNolock_ready world s (hsuits hold)).exists_ok
    rw [heq]
    exact ⟨ws, ⟨hws.items, hws.length, hws.sums, hws.positive, hws.total⟩, hfew⟩
  · exact h

theorem Ready.get (h : Ready s) (ts : Nat) (world : World I) (v rand : Nat)
    (hsuits : toUInt64 (ts - s.lastInitTime) > 500 → Suits world (s.valid world)) :
    Post (fun r => Finds world r.2.items r.1 ∧ Ready r.2) Never (s.get ts world v rand) := by
  refine (h.checkInit ts world hsuits).bind fun s' hs' => ?_
  obtain ⟨ws, hws, hfew⟩ := hs'
  obtain ⟨item, heq, hfinds⟩ := hws.choose hfew world v rand
  refine post_bind_ok heq ?_
  exact ⟨hfinds, ws, hws, hfew⟩

/-- The index is that of an item, an item has as many numbers as its weight says, and `get` gives a
connected item if there is one. -/
structure ChoosesByWeight (world : World I) (s : Balance I) : Prop where
  index : ∀ v rand, ∃ idx : Nat, idx < s.items.length ∧ s.getIdx v rand = .ok (idx : Int)
  share : ∀ (i : Nat) (item : I) (rand : Nat), s.items[i]? = some item →
    (((Finset.range (s.items.map world.getWeight).sum.toNat).filter fun r =>
      s.getIdx r rand = .ok (i : Int)).card : Int) = world.getWeight item
  connected : ∀ (ts : Nat) (later : World I) (v rand : Nat),
    (toUInt64 (ts - s.lastInitTime) > 500 → Suits later (s.valid later)) →
    Post (fun r => Finds later r.2.items r.1) (fun _ => False) (s.get ts later v rand)

/-- The items are chosen by their weights, where these are from one on. -/
theorem choice_by_weight (s : Balance I) (world : World I) (hne : s.valid world ≠ [])
    (hsuits : Suits world (s.valid world)) :
    ∃ s', s.initNolock world = .ok s' ∧ s'.items = s.valid world ∧ ChoosesByWeight world s' := by
  obtain ⟨s', heq, hitems, -, hs'⟩ := initNolock_weighed world s hsuits.positive hsuits.total
  have hfew : ((s.valid world).map fun item => (world.getWeight item).toNat).length ≤ 2 ^ 31 :=
    (length_map _).trans_le hsuits.few
  refine ⟨s', heq, hitems, ?_, ?_, ?_⟩
  · intro v rand
    obtain ⟨i, hshare, hidx⟩ := hs'.getIdx_inShare (by simpa using hne) hfew v rand
    exact ⟨i, hs'.items ▸ hshare.lt_length, hidx⟩
  · intro i item rand hitem
    rw [hitems] at hitem
    have hw : ((s.valid world).map fun item => (world.getWeight item).toNat)[i]? =
        some (world.getWeight item).toNat := by
      rw [getElem?_map, hitem]
      rfl
    have hpositive := hsuits.positive item (mem_of_getElem? hitem)
    rw [hitems, map_getWeight hsuits.positive, ← cast_sum, Int.toNat_natCast]
    generalize (s.valid world).map (fun item => (world.getWeight item).toNat) = ws at hs' hfew hw ⊢
    have hshare : ((Finset.range ws.sum).filter fun r => s'.getIdx r rand = .ok (i : Int)) =
        (Finset.range ws.sum).filter (InShare ws i) :=
      Finset.filter_congr fun r hr => hs'.getIdx_iff hfew rand i (Finset.mem_range.mp hr)
    rw [hshare, card_inShare hw]
    omega
  · intro ts later v rand hlater
    have hready : Ready s' := ⟨_, hs', hfew⟩
    exact (hready.get ts later v rand hlater).imp (fun _ h => h.1)

def alike (weight : Int) : World Nat where
  getId item := item
  getWeight _ := weight
  isValid _ := true

def ofSize (n : Nat) : Balance Nat where
  datas :=
    { entries := (List.range n).map fun i => ⟨i, i⟩
      nodupKeys := by
        rw [List.NodupKeys, List.keys, map_map]
        exact nodup_range.map fun _ _ => id }

theorem valid_ofSize (n weight) : (ofSize n).valid (alike weight) = range n := by
  have hall : (alike weight).isValid = fun _ => true := rfl
  rw [Balance.valid, hall, filter_true, ofSize, map_map]
  exact map_id _

theorem choice_by_weight_three :
    ∃ s', (ofSize 3).initNolock (alike 2) = .ok s' ∧ s'.items = (ofSize 3).valid (alike 2) ∧
      ChoosesByWeight (alike 2) s' :=
  choice_by_weight (ofSize 3) (alike 2) (by decide) ⟨by decide, by decide, by decide⟩

theorem getIdx_ofSize (hn : n < 2 ^ 63) (hr : r < n) :
    ∃ s', (ofSize n).initNolock (alike 1) = .ok s' ∧ s'.items.length = n ∧
      s'.getIdx r 0 = .ok (Int.bmod r (2 ^ 32)) := by
  have hmap : ∀ {α : Type} (a : α), (range n).map (fun _ => a) = replicate n a := by
    intro α a
    rw [map_const', length_range]
  have htotal : (((ofSize n).valid (alike 1)).map (alike 1).getWeight).sum < 2 ^ 63 := by
    rw [valid_ofSize]
    have hsum : ((range n).map (alike 1).getWeight).sum = n := by
      rw [show (alike 1).getWeight = fun _ => 1 from rfl, hmap, sum_replicate]
      simp
    omega
  obtain ⟨s', heq, hitems, -, hs'⟩ :=
    initNolock_weighed (alike 1) (ofSize n) (fun _ _ => Int.le_refl 1) htotal
  have hws : ((ofSize n).valid (alike 1)).map (fun item => ((alike 1).getWeight item).toNat) =
      replicate n 1 := by
    rw [valid_ofSize]
    exact hmap 1
  rw [hws] at hs'
  have htake : ∀ i ≤ n, ((replicate n 1).take i).sum = i := by
    intro i hi
    rw [take_replicate, sum_replicate, Nat.min_eq_left hi]
    simp
  have hsum : (replicate n 1).sum = n := by simp
  obtain ⟨i, hshare, hidx⟩ := hs'.getIdx_eq (ne_nil_of_length_pos (by simp; omega)) r 0
  rw [hsum, if_neg (by omega), Nat.mod_eq_of_lt hr] at hshare
  have hself : InShare (replicate n 1) r r := by
    rw [InShare, htake r (by omega), htake (r + 1) hr]
    omega
  rw [hshare.unique hself] at hidx
  exact ⟨s', heq, by rw [hitems, valid_ofSize, length_range], hidx⟩

/-- With more items than an `int32_t` can number, an index is negative. -/
theorem getIdx_negative :
    ∃ s', (ofSize (2 ^ 31 + 1)).initNolock (alike 1) = .ok s' ∧ s'.items.length = 2 ^ 31 + 1 ∧
      s'.getIdx (2 ^ 31) 0 = .ok (-2 ^ 31) := by
  obtain ⟨s', heq, hitems, hidx⟩ :=
    getIdx_ofSize (n := 2 ^ 31 + 1) (r := 2 ^ 31) (by decide) (by decide)
  exact ⟨s', heq, hitems, hidx⟩

/-! ## Runs -/

/-- What is done under the lock for writing, and what the items answer meanwhile. -/
inductive Action (I : Type)
  | add (world : World I) (v : I)
  | del (world : World I) (v : I)
  | update (world : World I) (adds : List (Nat × I)) (dels : List (Nat × Option I))
  | set (world : World I) (vs : List I)
  | init (world : World I)
  | checkInit (ts : Nat) (world : World I)

def exec : Action I → Balance I → Except Failure (Balance I)
  | .add world v, s => s.add world v
  | .del world v, s => s.del world v
  | .update world adds dels, s => (s.update world adds dels).map Prod.snd
  | .set world vs, s => s.set world vs
  | .init world, s => s.initNolock world
  | .checkInit ts world, s => s.checkInit ts world

def Action.world : Action I → World I
  | .add world _ => world
  | .del world _ => world
  | .update world _ _ => world
  | .set world _ => world
  | .init world => world
  | .checkInit _ world => world

def Action.datas (s : Balance I) : Action I → AList (fun _ : Nat => I)
  | .add world v => s.datas.insert (world.getId v) v
  | .del world v => s.datas.erase (world.getId v)
  | .update _ adds dels =>
    adds.foldl (fun datas e => datas.insert e.1 e.2) (Balance.remove dels s.datas).2
  | .set world vs => vs.foldl (fun datas v => datas.insert (world.getId v) v) ∅
  | .init _ => s.datas
  | .checkInit _ _ => s.datas

/-- The weights suit where they are added up; `checkInit` does so after half a second. -/
def Fits (s : Balance I) : Action I → Prop
  | .checkInit ts world =>
    toUInt64 (ts - s.lastInitTime) > 500 → Suits world (s.valid world)
  | a => Suits a.world (Balance.valid a.world { s with datas := a.datas s })

theorem exec_ready (s : Balance I) (a : Action I) (hs : Ready s) (ha : Fits s a) :
    Post Ready Never (exec a s) := by
  cases a with
  | add world v => exact initNolock_ready world _ ha
  | del world v => exact initNolock_ready world _ ha
  | update world adds dels =>
    obtain ⟨s', heq, hs'⟩ := (initNolock_ready world _ ha).exists_ok
    rw [exec, Balance.update]
    dsimp only [Action.world, Action.datas] at heq ⊢
    rw [heq]
    exact hs'
  | set world vs => exact initNolock_ready world _ ha
  | init world => exact initNolock_ready world s ha
  | checkInit ts world => exact hs.checkInit ts world ha

/-- Whatever is added and removed: if the weights suit each time they are added up, no call fails,
and a choice gives a connected item if there is one. -/
theorem runs_choose (as : List (Action I)) (has : Along exec Fits as {}) :
    Post (fun s => ∀ world v rand, ∃ item, s.choose world v rand = .ok item ∧
      Finds world s.items item) Never (run exec as {}) := by
  have hinit : Ready ({} : Balance I) := by
    refine ⟨[], ⟨rfl, rfl, ?_, ?_, Nat.two_pow_pos 63⟩, Nat.zero_le _⟩
    · exact fun i hi => absurd hi (Nat.not_lt_zero i)
    · exact fun w hw => absurd hw not_mem_nil
  apply (post_run exec_ready as _ has hinit).imp
  rintro s ⟨ws, hws, hfew⟩ world v rand
  exact hws.choose hfew world v rand

theorem runs_choose_two : Post (fun s => ∀ world v rand, ∃ item, s.choose world v rand = .ok item ∧
      Finds world s.items item) Never (run exec [.set (alike 2) [4, 5], .del (alike 1) 4] {}) :=
  runs_choose _ ⟨⟨by decide, by decide, by decide⟩, ⟨by decide, by decide, by decide⟩, trivial⟩

end Helens.WeightLoadBalance
