import Helens.BitmapWords
import Mathlib.Tactic.Ring

/-! Compression and its decoders. The compressed words are a code in groups: a plain
word stands for itself, the digits of a count for a run. `compress` writes such a code,
and every decoder walks the words that the code stands for. -/

namespace Helens.Ds.Bitmap

open Lib.Runs Lib.RangeLoops Lib.RunLength List

/-! ## Counts -/

variable (v : Bool) {w : Word} {out ws : List Word}

theorem getLsbD_runWord (hi : i < 16) :
    (runWord v d).getLsbD i = (decide (i = 15) || (v && decide (i = 14)) || d.testBit i) := by
  have hcompress : compressMask.getLsbD i = decide (i = 15) :=
    (getLsbD_pos 15 i).trans (by simp [hi])
  have hvalue : valueMask.getLsbD i = decide (i = 14) :=
    (getLsbD_pos 14 i).trans (by simp [hi])
  have hdigit : (BitVec.ofNat 16 d).getLsbD i = d.testBit i := by
    rw [BitVec.getLsbD_ofNat, decide_eq_true hi, Bool.true_and]
  unfold runWord
  cases v with
  | false =>
    rw [if_neg Bool.false_ne_true, BitVec.getLsbD_or, hcompress, hdigit]
    simp
  | true =>
    rw [if_pos rfl, BitVec.getLsbD_or, BitVec.getLsbD_or, hcompress, hvalue, hdigit]
    simp

theorem isRun_runWord (d) : isRun (runWord v d) = true := by
  rw [isRun_eq, getLsbD_runWord v (by decide)]
  rfl

theorem runValue_runWord (hd : d < 2 ^ 14) : runValue (runWord v d) = v := by
  rw [runValue_eq, getLsbD_runWord v (by decide), Nat.testBit_lt_two_pow hd]
  simp

theorem digit_runWord (hd : d < 2 ^ 14) : (runWord v d &&& countMask).toNat = d := by
  have hword : runWord v d &&& countMask = BitVec.ofNat 16 d := by
    refine BitVec.eq_of_getLsbD_eq fun i hi => ?_
    rw [BitVec.getLsbD_and, getLsbD_runWord v hi, getLsbD_countMask, BitVec.getLsbD_ofNat]
    by_cases hlow : i < 14
    · have h15 : i ≠ 15 := by omega
      have h14 : i ≠ 14 := by omega
      simp [hlow, h15, h14, hi]
    · have hhigh : d.testBit i = false :=
        Nat.testBit_lt_two_pow (lt_of_lt_of_le hd (Nat.pow_le_pow_right (by decide) (by omega)))
      simp [hlow, hhigh]
  rw [hword, BitVec.toNat_ofNat]
  exact Nat.mod_eq_of_lt (by omega)

@[simp] theorem runWords_zero (fuel) : runWords v fuel 0 = [] := by
  cases fuel <;> rfl

theorem runWords_succ (fuel) {count : Nat} (h : count ≠ 0) : runWords v (fuel + 1) count =
      runWord v (count % 2 ^ 14) :: runWords v fuel (count / 2 ^ 14) := if_neg h

theorem mem_runWords {v : Bool} {fuel count : Nat} (h : w ∈ runWords v fuel count) :
    isRun w = true ∧ runValue w = v := by
  induction fuel generalizing count with
  | zero => cases h
  | succ fuel ih =>
    by_cases hcount : count = 0
    · subst hcount
      simp at h
    · rw [runWords_succ v fuel hcount, mem_cons] at h
      rcases h with rfl | h
      · have hd : count % 2 ^ 14 < 2 ^ 14 := Nat.mod_lt _ (by decide)
        exact ⟨isRun_runWord v _, runValue_runWord v hd⟩
      · exact ih h

theorem runWords_isChain (fuel count) :
    (runWords v fuel count).IsChain fun x y => joins x y = true := by
  refine List.Pairwise.isChain (pairwise_of_forall_mem_list fun x hx y hy => ?_)
  obtain ⟨hx, hxv⟩ := mem_runWords hx
  obtain ⟨hy, hyv⟩ := mem_runWords hy
  simp [joins, hx, hy, hxv, hyv]

theorem length_runWords {v : Bool} {fuel count k : Nat} (h : count < 2 ^ (14 * k)) :
    (runWords v fuel count).length ≤ k := by
  induction fuel generalizing count k with
  | zero => exact Nat.zero_le _
  | succ fuel ih =>
    by_cases hcount : count = 0
    · subst hcount
      simp
    · cases k with
      | zero =>
        rw [Nat.mul_zero, Nat.pow_zero] at h
        omega
      | succ k =>
        rw [runWords_succ v fuel hcount, length_cons]
        refine Nat.succ_le_succ (ih ?_)
        rw [Nat.mul_succ, Nat.pow_add] at h
        exact Nat.div_lt_of_lt_mul (by rwa [Nat.mul_comm])

theorem runCount_runWords {fuel rest acc k : Nat} (hfuel : rest < 2 ^ (14 * fuel))
    (hacc : acc < 2 ^ (14 * k)) (hfit : acc + rest * 2 ^ (14 * k) < 2 ^ 32) :
    runCount acc k (runWords v fuel rest) = .ok (acc + rest * 2 ^ (14 * k)) := by
  induction fuel generalizing rest acc k with
  | zero =>
    obtain rfl : rest = 0 := by
      rw [Nat.mul_zero, Nat.pow_zero] at hfuel
      omega
    simp [runCount]
  | succ fuel ih =>
    by_cases hrest : rest = 0
    · subst hrest
      simp [runCount]
    · have hdigit : rest % 2 ^ 14 < 2 ^ 14 := Nat.mod_lt _ (by decide)
      have hsplit : rest % 2 ^ 14 * 2 ^ (14 * k) + rest / 2 ^ 14 * 2 ^ (14 * (k + 1)) =
          rest * 2 ^ (14 * k) := by
        have hdiv := Nat.mod_add_div rest (2 ^ 14)
        rw [Nat.mul_succ, Nat.pow_add]
        calc rest % 2 ^ 14 * 2 ^ (14 * k) + rest / 2 ^ 14 * (2 ^ (14 * k) * 2 ^ 14)
            = (rest % 2 ^ 14 + 2 ^ 14 * (rest / 2 ^ 14)) * 2 ^ (14 * k) := by ring
          _ = rest * 2 ^ (14 * k) := by rw [hdiv]
      have hpow : 2 ^ (14 * k) < 2 ^ 32 := by
        have hone : 1 * 2 ^ (14 * k) ≤ rest * 2 ^ (14 * k) :=
          Nat.mul_le_mul_right _ (Nat.one_le_iff_ne_zero.mpr hrest)
        omega
      have hshift : 14 * k < 32 := (Nat.pow_lt_pow_iff_right (by decide)).mp hpow
      have hword : ((rest % 2 ^ 14) <<< (14 * k)) % 2 ^ 32 ||| acc =
          rest % 2 ^ 14 * 2 ^ (14 * k) + acc := by
        have hnowrap : (rest % 2 ^ 14) <<< (14 * k) < 2 ^ 32 := by
          rw [Nat.shiftLeft_eq]
          omega
        rw [Nat.mod_eq_of_lt hnowrap, ← Nat.shiftLeft_add_eq_or_of_lt hacc, Nat.shiftLeft_eq]
      rw [runWords_succ v fuel hrest, runCount, if_pos hshift, digit_runWord v hdigit, hword]
      rw [ih]
      · exact congrArg Except.ok (by omega)
      · rw [Nat.mul_succ, Nat.pow_add] at hfuel
        exact Nat.div_lt_of_lt_mul (by rwa [Nat.mul_comm])
      · rw [Nat.mul_succ, Nat.pow_add]
        calc rest % 2 ^ 14 * 2 ^ (14 * k) + acc
            < rest % 2 ^ 14 * 2 ^ (14 * k) + 2 ^ (14 * k) := Nat.add_lt_add_left hacc _
          _ = (rest % 2 ^ 14 + 1) * 2 ^ (14 * k) := by ring
          _ ≤ 2 ^ 14 * 2 ^ (14 * k) := Nat.mul_le_mul_right _ hdigit
          _ = 2 ^ (14 * k) * 2 ^ 14 := Nat.mul_comm _ _
      · omega

theorem piece_runWords {count : Nat} (h0 : count ≠ 0) (h : count < 2 ^ 32) :
    piece (runWords v 5 count) = .ok (.run v count) := by
  have hdigit : count % 2 ^ 14 < 2 ^ 14 := Nat.mod_lt _ (by decide)
  have hsum : count % 2 ^ 14 + count / 2 ^ 14 * 2 ^ (14 * 1) = count := by
    rw [Nat.mul_one]
    exact Nat.mod_add_div' count (2 ^ 14)
  have hrest : runCount (count % 2 ^ 14) 1 (runWords v 4 (count / 2 ^ 14)) = .ok count := by
    rw [runCount_runWords v (by omega) hdigit (by rw [hsum]; exact h), hsum]
  rw [runWords_succ v 4 h0, piece, if_pos (isRun_runWord v _), digit_runWord v hdigit,
    runValue_runWord v hdigit, hrest]
  rfl

theorem piece_literal (h : Plain w) : piece [w] = .ok (.literal w) := by
  rw [piece, h.isRun, h]
  rfl

/-! ## The code -/

inductive Means : List Word → List Word → Prop
  | literal {w : Word} (h : Plain w) : Means [w] [w]
  | run {v : Bool} {n : Nat} (h : 1 < n) (h' : 14 * n < 2 ^ 32) :
    Means (runWords v 5 (14 * n)) (List.replicate n (fill v))

def Encodes (out ws : List Word) : Prop := Codes joins Means out ws

/-- No run of the value `v` ends the words. -/
def Ends (v : Bool) (ws : List Word) : Prop := ∀ x ∈ ws.getLast?, x ≠ fill v

theorem Means.length_le {g vs : List Word} (h : Means g vs) : g.length ≤ vs.length := by
  cases h with
  | literal => exact le_refl _
  | @run v n hn hfit =>
    rw [length_replicate]
    by_cases hone : 14 * n < 2 ^ 14
    · have hlen : (runWords v 5 (14 * n)).length ≤ 1 := length_runWords (by simpa using hone)
      omega
    · have hlen : (runWords v 5 (14 * n)).length ≤ 3 := length_runWords (by omega)
      omega

theorem joins_plain (x) (h : Plain w) : joins x w = false := by
  simp [joins, h.isRun]

theorem Encodes.literal (h : Encodes out ws) (hw : Plain w) : Encodes (out ++ [w]) (ws ++ [w]) := by
  refine Codes.snoc h (cons_ne_nil _ _) (isChain_singleton _) ?_ (.literal hw)
  intro x _ y hy
  obtain rfl : w = y := Option.some.inj hy
  exact joins_plain x hw

theorem Encodes.run {v : Bool} {n : Nat} (h : Encodes out ws) (hends : Ends v ws) (hn : 1 < n)
    (hfit : 14 * n < 2 ^ 32) :
    Encodes (out ++ runWords v 5 (14 * n)) (ws ++ replicate n (fill v)) := by
  refine Codes.snoc h ?_ (runWords_isChain v 5 _) ?_ (.run hn hfit)
  · rw [runWords_succ v 4 (by omega)]
    exact cons_ne_nil _ _
  · intro x hx y hy
    obtain ⟨hyrun, hyv⟩ := mem_runWords (mem_of_mem_head? hy)
    rw [Bool.eq_false_iff]
    intro hjoins
    simp only [joins, hyrun, hyv, Bool.and_true, Bool.and_eq_true, beq_iff_eq] at hjoins
    -- the group in front is no run of the value `v`, as its words would end in one
    cases h with
    | nil => cases hx
    | snoc _ hne _ _ hmeans =>
      rw [getLast?_append_of_ne_nil _ hne] at hx
      cases hmeans with
      | @literal w hw =>
        obtain rfl : w = x := Option.some.inj hx
        rw [hw.isRun] at hjoins
        cases hjoins.1
      | @run v' m hm _ =>
        obtain rfl : v' = v := (mem_runWords (mem_of_mem_getLast? hx)).2.symm.trans hjoins.2
        refine hends (fill v') ?_ rfl
        rw [getLast?_append_of_ne_nil _ (by simp; omega), getLast?_replicate,
          if_neg (by omega)]
        rfl

/-! ## The code that is written -/

/-- Neighbours of one run. -/
def sameFill (x y : Word) : Bool := x == y && (x == fill false || x == fill true)

/-- What `compress` writes for a run, or for a word of its own. -/
def packed (g : List Word) : List Word :=
  if 1 < g.length then runWords (g.head? == some (fill true)) 5 (14 * g.length) else g

def tokens (ws : List Word) : List Word := (ws.splitBy sameFill).flatMap packed

theorem tokens_append (h : ∀ x ∈ ws.getLast?, ∀ y ∈ vs.head?, sameFill x y = false) :
    tokens (ws ++ vs) = tokens ws ++ tokens vs := by
  rw [tokens, splitBy_append h, flatMap_append]
  rfl

theorem tokens_literal (h : ∀ v, w ≠ fill v) (ws) : tokens (ws ++ [w]) = tokens ws ++ [w] := by
  refine tokens_append fun x _ y hy => ?_
  obtain rfl : w = y := Option.some.inj hy
  by_cases hx : x = w
  · subst hx
    simp [sameFill, h]
  · simp [sameFill, hx]

theorem tokens_run {v : Bool} (hends : Ends v ws) (n : Nat) :
    tokens (ws ++ replicate n (fill v)) = tokens ws ++
      if 1 < n then runWords v 5 (14 * n) else replicate n (fill v) := by
  rw [tokens_append]
  · cases n with
    | zero => rfl
    | succ n =>
      have hchain : (replicate (n + 1) (fill v)).IsChain fun x y => sameFill x y = true :=
        isChain_replicate_of_rel _ (by cases v <;> rfl)
      have hhead : ((replicate (n + 1) (fill v)).head? == some (fill true)) = v := by
        cases v <;> rfl
      refine congrArg _ ?_
      rw [tokens, splitBy_of_isChain (by simp) hchain, flatMap_singleton, packed, hhead,
        length_replicate]
  · intro x hx y hy
    obtain rfl := eq_of_mem_replicate (mem_of_mem_head? hy)
    simp [sameFill, hends x hx]

/-! ## Writing the code -/

theorem countBits_eq_zero : countBits w = 0 ↔ w = 0#16 := by
  unfold countBits
  rw [countP_eq_zero]
  constructor
  · intro h
    refine BitVec.eq_of_getLsbD_eq fun i hi => ?_
    have hbit := h i (mem_range.mpr hi)
    rw [Bool.not_eq_true] at hbit
    rw [hbit, BitVec.getLsbD_zero]
  · rintro rfl i _
    simp

theorem countBits_eq_full (hw : Plain w) : countBits w = 14 ↔ w = countMask := by
  have hsplit : range 16 = range 14 ++ [14, 15] := by decide
  have h14 := hw.getLsbD (i := 14) (by decide)
  have h15 := hw.getLsbD (i := 15) (by decide)
  have hcount : countBits w = (range 14).countP fun i => w.getLsbD i := by
    rw [countBits, hsplit, countP_append, countP_cons, countP_cons, h14, h15]
    rfl
  have hlen : (range 14).countP (fun i => w.getLsbD i) = 14 ↔
      (range 14).countP (fun i => w.getLsbD i) = (range 14).length := by
    rw [length_range]
  rw [hcount, hlen, countP_eq_length]
  constructor
  · intro h
    refine BitVec.eq_of_getLsbD_eq fun i _ => ?_
    rw [getLsbD_countMask]
    by_cases hi : i < 14
    · rw [h i (mem_range.mpr hi), decide_eq_true hi]
    · rw [hw.getLsbD (Nat.not_lt.mp hi), decide_eq_false hi]
  · rintro rfl i hi
    rw [getLsbD_countMask]
    exact decide_eq_true (mem_range.mp hi)

/-- The test of `compress` for a word that the open run can take. -/
theorem extends_iff (hw : Plain w) (v) :
    (countBits (w &&& countMask) = 0 ∧ v = false ∨ countBits (w &&& countMask) = 14 ∧ v = true) ↔
      w = fill v := by
  rw [hw, countBits_eq_zero, countBits_eq_full hw]
  cases v <;> simp [fill]

theorem emits (h : out.length + ws.length ≤ cap) : ws.foldlM (emit cap) out = .ok (out ++ ws) := by
  induction ws generalizing out with
  | nil =>
    rw [append_nil]
    rfl
  | cons w ws ih =>
    rw [length_cons] at h
    have hroom : out.length < cap := by omega
    rw [foldlM_cons, emit, if_pos hroom]
    refine (ih ?_).trans ?_
    · rw [length_append, length_singleton]
      omega
    · rw [append_assoc, singleton_append]

structure Packs (pre : List Word) (st : Packing) : Prop where
  coded : ∃ done, Encodes st.out done ∧ st.out = tokens done ∧
    pre = done ++ List.replicate (st.count / 14) (fill st.value) ∧
    ∀ v, v = st.value ∨ st.count = 0 → Ends v done
  whole : st.count % 14 = 0

theorem flush_post {cap : Nat} {pre : List Word} {st : Packing} (h : Packs pre st)
    (hcap : pre.length ≤ cap) (hfit : 14 * pre.length < 2 ^ 32) :
    Post (fun out => Encodes out pre ∧ out = tokens pre ∧ Ends (!st.value) pre) Never
      (flush cap st) := by
  obtain ⟨⟨done, hdone, hout, rfl, hends⟩, hwhole⟩ := h
  have hlen : st.out.length ≤ done.length := hdone.length_le fun _ _ => Means.length_le
  have hcount : 14 * (st.count / 14) = st.count := by omega
  rw [length_append, length_replicate] at hcap hfit
  rw [tokens_run (hends _ (.inl rfl)), ← hout]
  have hother : st.count ≠ 0 →
      Ends (!st.value) (done ++ replicate (st.count / 14) (fill st.value)) := by
    intro hpos x hx
    rw [getLast?_append_of_ne_nil _ (by simp; omega), getLast?_replicate,
      if_neg (by omega)] at hx
    obtain rfl := Option.some.inj hx
    cases st.value <;> decide
  unfold flush
  by_cases hlong : 1 < st.count / 14
  · have hrun := hdone.run (hends st.value (.inl rfl)) hlong (by omega)
    have hmeans := Means.length_le (.run (v := st.value) hlong (by omega))
    rw [hcount] at hrun hmeans
    rw [length_replicate] at hmeans
    rw [if_pos hlong, if_pos hlong, emits (by omega), hcount]
    exact ⟨hrun, rfl, hother (by omega)⟩
  · rw [if_neg hlong, if_neg hlong]
    by_cases hzero : st.count = 0
    · rw [if_neg (not_not.mpr hzero), hzero, Nat.zero_div, replicate_zero, append_nil, append_nil]
      exact ⟨hdone, rfl, hends _ (.inr hzero)⟩
    · have hone : st.count / 14 = 1 := by omega
      have hroom : st.out.length < cap := by omega
      rw [if_pos hzero, emit, if_pos hroom]
      rw [hone] at hother ⊢
      exact ⟨hdone.literal (plain_fill _), rfl, hother hzero⟩

theorem compressStep_post (h : Packs pre st) (hcur : Plain cur) (hcap : pre.length + 1 ≤ cap)
    (hfit : 14 * (pre.length + 1) < 2 ^ 32) :
    Post (Packs (pre ++ [cur])) Never (compressStep cap st cur) := by
  unfold compressStep
  dsimp only
  by_cases hextend : cur = fill st.value
  · rw [if_pos ((extends_iff hcur st.value).mpr hextend)]
    obtain ⟨⟨done, hdone, hout, rfl, hends⟩, hwhole⟩ := h
    refine ⟨⟨done, hdone, hout, ?_, fun v hv => ?_⟩, ?_⟩
    · have hnext : (st.count + 14) / 14 = st.count / 14 + 1 := by omega
      rw [hnext, replicate_succ', append_assoc, hextend]
    · exact hends v (.inl (hv.resolve_right (Nat.succ_ne_zero _)))
    · dsimp only
      omega
  · have hwhole : ¬ (1 < st.count / 14 ∧ st.count % 14 ≠ 0) := fun hbad => hbad.2 h.whole
    rw [if_neg (mt (extends_iff hcur st.value).mp hextend), if_neg hwhole]
    refine (flush_post h (by omega) (by omega)).bind ?_
    rintro out ⟨hout, heq, hends⟩
    split
    · next hfull =>
      -- a run of the other kind begins
      have hother : cur = fill (decide (countBits (cur &&& countMask) = 14)) := by
        rw [← extends_iff hcur]
        rcases hfull with h0 | h14
        · simp [h0]
        · simp [h14]
      have hvalue : decide (countBits (cur &&& countMask) = 14) = !st.value := by
        refine Bool.eq_not_of_ne fun hsame => hextend ?_
        rw [hsame] at hother
        exact hother
      rw [hvalue] at hother ⊢
      refine ⟨⟨pre, hout, heq, by simp [hother], fun v hv => ?_⟩, Nat.mod_self 14⟩
      rw [hv.resolve_right (Nat.succ_ne_zero _)]
      exact hends
    · next hfull =>
      have hlen : out.length ≤ pre.length := hout.length_le fun _ _ => Means.length_le
      have hroom : out.length < cap := by omega
      have hliteral : ∀ v, cur ≠ fill v := by
        intro v hv
        rcases (extends_iff hcur v).mpr hv with h0 | h14
        · exact hfull (.inl h0.1)
        · exact hfull (.inr h14.1)
      rw [emit, if_pos hroom]
      refine ⟨⟨pre ++ [cur], hout.literal hcur, ?_, by simp, fun v _ x hx => ?_⟩, rfl⟩
      · rw [tokens_literal hliteral, heq]
      · rw [getLast?_concat] at hx
        obtain rfl := Option.some.inj hx
        exact hliteral v

/-- `compress` writes a code of the words, within the buffer. -/
theorem compress_post {b : Bitmap} (hb : b.compressed = false) (hplain : ∀ w ∈ b.data, Plain w)
    (hfit : 14 * b.data.length < 2 ^ 32) :
    Post (fun c => c.compressed = true ∧ c.size = b.size ∧ Encodes c.data b.data ∧
      c.data = tokens b.data) Never b.compress := by
  have hinit : Packs [] ⟨[], false, 0⟩ := ⟨⟨[], .nil, rfl, rfl, fun v _ => nofun⟩, rfl⟩
  have hloop : Post (Packs b.data) Never
      (b.data.foldlM (compressStep b.data.length) ⟨[], false, 0⟩) := by
    refine post_foldlM hinit fun pre cur st hpre hst => ?_
    have hlen := hpre.length_le
    rw [length_append, length_singleton] at hlen
    refine compressStep_post hst (hplain cur ?_) hlen (by omega)
    exact hpre.subset (mem_append_right _ (mem_singleton_self _))
  unfold compress
  rw [hb, if_neg Bool.false_ne_true]
  refine hloop.bind fun st hst => ?_
  refine (flush_post hst (le_refl _) hfit).bind fun out hout => ?_
  exact ⟨rfl, rfl, hout.1, hout.2.1⟩

end Helens.Ds.Bitmap
