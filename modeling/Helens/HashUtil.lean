import Mathlib.Data.BitVec
import Mathlib.Data.List.TakeWhile
import Mathlib.Tactic.IntervalCases
import Mathlib.Tactic.Ring

/-! `hash_util.cc`: replacing in a text, base64, `quick_hash` and `split`. -/

namespace Helens.HashUtil
open List

/-! ## `replace` -/

section Replace

variable (pat rep : List Char)

def find (str : List Char) (pos : Nat) : Option Nat :=
  (range' pos (str.length + 1 - pos)).find? fun i => pat.isPrefixOf (str.drop i)

/-- The loop of `replace`, `none` if the fuel does not suffice; for `pat` or `rep` of one letter it
is that of the other overloads. -/
def replaceLoop : Nat → List Char → Option Nat → Option (List Char)
  | _, str, none => some str
  | 0, _, some _ => none
  | fuel + 1, str, some index =>
    let str := str.take index ++ rep ++ str.drop (index + pat.length)
    replaceLoop fuel str (find pat str (index + rep.length))

def replace (fuel : Nat) (str : List Char) : Option (List Char) :=
  replaceLoop pat rep fuel str (find pat str 0)

/-- The leftmost occurrences replaced, one after another in what is left of the text. -/
inductive Replaced : List Char → List Char → Prop
  | done {s} (h : ∀ j ≤ s.length, ¬ pat <+: s.drop j) : Replaced s s
  | next {s out} (i : Nat) (hi : i ≤ s.length) (h : pat <+: s.drop i)
    (hmin : ∀ j < i, ¬ pat <+: s.drop j) (hrest : Replaced (s.drop (i + pat.length)) out) :
    Replaced s (s.take i ++ rep ++ out)

variable {pat}

theorem find_none (h : find pat (done ++ rest) done.length = none) :
    ∀ j ≤ rest.length, ¬ pat <+: rest.drop j := by
  intro j hj hpat
  have hmem : done.length + j ∈ range' done.length ((done ++ rest).length + 1 - done.length) := by
    simp
    omega
  refine find?_eq_none.mp h _ hmem ?_
  rwa [ isPrefixOf_iff_prefix, drop_length_add_append]

theorem find_some (h : find pat (done ++ rest) done.length = some index) :
    ∃ i, index = done.length + i ∧ i ≤ rest.length ∧ pat <+: rest.drop i ∧
      ∀ j < i, ¬ pat <+: rest.drop j := by
  obtain ⟨hpat, hmem, hmin⟩ := find?_range'_eq_some.mp h
  have hi := mem_range'_1.mp hmem
  obtain ⟨i, rfl⟩ := Nat.exists_eq_add_of_le hi.1
  rw [ isPrefixOf_iff_prefix, drop_length_add_append] at hpat
  rw [length_append] at hi
  refine ⟨i, rfl, by omega, hpat, fun j hj hprefix => ?_⟩
  have hnot := hmin (done.length + j) (by omega) (by omega)
  rw [drop_length_add_append, isPrefixOf_iff_prefix.mpr hprefix] at hnot
  cases hnot

/-- The loop goes on behind `done`: nothing there is searched again. -/
theorem replaceLoop_append (hpat : pat ≠ []) {fuel : Nat} {done rest : List Char}
    (hfuel : rest.length ≤ fuel) :
    ∃ out, Replaced pat rep rest out ∧
      replaceLoop pat rep fuel (done ++ rest) (find pat (done ++ rest) done.length) =
        some (done ++ out) := by
  induction fuel generalizing done rest with
  | zero =>
    cases hfind : find pat (done ++ rest) done.length with
    | none => exact ⟨rest, .done (find_none hfind), rfl⟩
    | some index =>
      obtain ⟨i, -, -, hprefix, -⟩ := find_some hfind
      obtain rfl : rest = [] := length_eq_zero_iff.mp (Nat.le_zero.mp hfuel)
      rw [drop_nil] at hprefix
      exact absurd (prefix_nil.mp hprefix) hpat
  | succ fuel ih =>
    cases hfind : find pat (done ++ rest) done.length with
    | none => exact ⟨rest, .done (find_none hfind), rfl⟩
    | some index =>
      obtain ⟨i, rfl, hi, hprefix, hmin⟩ := find_some hfind
      have hlen := hprefix.length_le
      have hpos := length_pos_iff.mpr hpat
      rw [length_drop] at hlen
      obtain ⟨out, hout, hloop⟩ := @ih (done ++ rest.take i ++ rep) (rest.drop (i + pat.length))
        (by rw [length_drop]; omega)
      refine ⟨rest.take i ++ rep ++ out, .next i hi hprefix hmin hout, ?_⟩
      rw [replaceLoop, take_length_add_append, Nat.add_assoc, drop_length_add_append]
      simp only [length_append, length_take, Nat.min_eq_left hi, append_assoc] at hloop ⊢
      rwa [Nat.add_assoc]

theorem find_empty (h : pos ≤ str.length) : find [] str pos = some pos := by
  rw [find, show str.length + 1 - pos = str.length - pos + 1 by omega, range'_succ]
  simp

theorem replaceLoop_empty (fuel) (h : index ≤ str.length) :
    replaceLoop [] rep fuel str (some index) = none := by
  induction fuel generalizing index str with
  | zero => rfl
  | succ fuel ih =>
    have hnext : index + rep.length ≤ (str.take index ++ rep ++ str.drop (index + 0)).length := by
      simp only [length_append, length_take]
      omega
    rw [replaceLoop, length_nil, find_empty hnext]
    exact ih hnext

theorem replace_empty (fuel str) : replace [] rep fuel str = none := by
  rw [replace, find_empty (Nat.zero_le _), replaceLoop_empty rep fuel (Nat.zero_le _)]

/-- `replace` returns exactly if there is something to search for. -/
theorem replace_leftmost (pat rep str : List Char) :
    (pat ≠ [] ↔ ∃ fuel, replace pat rep fuel str ≠ none) ∧
      (pat ≠ [] → ∀ fuel, str.length ≤ fuel →
        ∃ out, Replaced pat rep str out ∧ replace pat rep fuel str = some out) := by
  have hdone : pat ≠ [] → ∀ fuel, str.length ≤ fuel →
      ∃ out, Replaced pat rep str out ∧ replace pat rep fuel str = some out :=
    fun hpat fuel hfuel => @replaceLoop_append pat rep hpat fuel [] str hfuel
  refine ⟨⟨fun hpat => ?_, ?_⟩, hdone⟩
  · obtain ⟨out, -, hout⟩ := hdone hpat str.length le_rfl
    exact ⟨str.length, by simp [hout]⟩
  · rintro ⟨fuel, hne⟩ rfl
    exact hne (replace_empty rep fuel str)

theorem replace_leftmost_aaa : ∃ out, Replaced "aa".toList "a".toList "aaa".toList out ∧
      replace "aa".toList "a".toList 3 "aaa".toList = some out :=
  (replace_leftmost "aa".toList "a".toList "aaa".toList).2 (by decide) 3 (by decide)

theorem replace_empty_loops : ¬ ∃ fuel, replace [] ['b'] fuel ['a'] ≠ none := by
  rintro ⟨fuel, hne⟩
  exact hne (replace_empty ['b'] fuel ['a'])

end Replace

/-! ## base64 -/

abbrev Byte := BitVec 8

def base64 : List Char :=
  "ABCDEFGHIJKLMNOPQRSTUVWXYZabcdefghijklmnopqrstuvwxyz0123456789+/".toList

def digit (v : Nat) : Char := base64.getD v '='

def encodeGroup (packed padding : Nat) : List Char :=
  [digit (packed >>> 18), digit (packed >>> 12 % 64)] ++
    (if padding ≠ 2 then [digit (packed >>> 6 % 64)] else []) ++
    (if padding = 0 then [digit (packed % 64)] else []) ++ replicate padding '='

def pack (a b c : Byte) : Nat := a.toNat * 2 ^ 16 + b.toNat * 2 ^ 8 + c.toNat

def base64encode : List Byte → List Char
  | [] => []
  | [a] => encodeGroup (pack a 0 0) 2
  | [a, b] => encodeGroup (pack a b 0) 1
  | a :: b :: c :: rest => encodeGroup (pack a b c) 0 ++ base64encode rest

def value (c : Char) : Option Nat :=
  if 'A' ≤ c ∧ c ≤ 'Z' then some (c.toNat - 'A'.toNat)
  else if 'a' ≤ c ∧ c ≤ 'z' then some (c.toNat - 'a'.toNat + 26)
  else if '0' ≤ c ∧ c ≤ '9' then some (c.toNat - '0'.toNat + 52)
  else if c = '+' then some 62
  else if c = '/' then some 63
  else none

def readGroup : List Char → Nat → Nat → Option (Nat × Nat)
  | [], packed, padding => some (packed, padding)
  | c :: rest, packed, padding =>
    if c = '=' then readGroup rest (packed * 64) (padding + 1)
    else if padding > 0 then none
    else match value c with
      | none => none
      | some v => readGroup rest (packed * 64 + v) padding

def groupBytes (packed padding : Nat) : List Byte :=
  [BitVec.ofNat 8 (packed >>> 16)] ++
    (if padding ≠ 2 then [BitVec.ofNat 8 (packed >>> 8)] else []) ++
    (if padding = 0 then [BitVec.ofNat 8 packed] else [])

inductive Undefined
  | outside

def write (size : Nat) (written bytes : List Byte) : Except Undefined (List Byte) :=
  if written.length + bytes.length ≤ size then .ok (written ++ bytes) else .error .outside

def decodeLoop (size : Nat) : List Char → List Byte → Except Undefined (List Byte)
  | [], written => .ok written
  | a :: b :: c :: d :: rest, written =>
    match readGroup [a, b, c, d] 0 0 with
    | none => .ok []
    | some (packed, padding) =>
      if padding > 0 ∧ rest ≠ [] ∨ padding > 2 then .ok []
      else do
        let written ← write size written (groupBytes packed padding)
        decodeLoop size rest written
  | _, _ => .ok []

def base64decode (src : List Char) : Except Undefined (List Byte) :=
  decodeLoop (src.length * 3 / 4) src []

theorem value_digit : ∀ v < 64, value (digit v) = some v ∧ digit v ≠ '=' := by decide +kernel

theorem mem_base64 (h : value c = some v) : c ∈ base64 := by
  have hall : ∀ n < 128, value (Char.ofNat n) ≠ none → Char.ofNat n ∈ base64 := by decide +kernel
  have hle : ∀ d : Char, d.toNat < 128 → c ≤ d → c.toNat < 128 := fun d hd hc =>
    Nat.lt_of_le_of_lt (UInt32.le_iff_toNat_le.mp hc) hd
  have hlt : c.toNat < 128 := by
    unfold value at h
    split at h
    · next hc => exact hle 'Z' (by decide) hc.2
    split at h
    · next hc => exact hle 'z' (by decide) hc.2
    split at h
    · next hc => exact hle '9' (by decide) hc.2
    split at h
    · next hc => exact hc ▸ by decide
    split at h
    · next hc => exact hc ▸ by decide
    · cases h
  simpa [h] using hall c.toNat hlt

theorem readGroup_eq_some (h : readGroup w packed padding = some (packed', padding')) :
    ∃ body k, w = body ++ replicate k '=' ∧ padding' = padding + k ∧
      (∀ c ∈ body, c ∈ base64) ∧ (0 < padding → body = []) := by
  induction w generalizing packed padding with
  | nil =>
    simp [readGroup] at h
    exact ⟨[], 0, rfl, h.2.symm, by simp, fun _ => rfl⟩
  | cons c w ih =>
    rw [readGroup] at h
    split at h
    · next hc =>
      obtain ⟨body, k, rfl, hk, -, hbody⟩ := ih h
      obtain rfl := hbody (Nat.succ_pos _)
      exact ⟨[], k + 1, by simp [hc, replicate_succ], by omega, by simp, fun _ => rfl⟩
    · split at h
      · cases h
      · next hpad =>
        split at h
        · cases h
        · next v hv =>
          obtain ⟨body, k, rfl, hk, hmem, -⟩ := ih h
          refine ⟨c :: body, k, rfl, hk, ?_, fun hpos => absurd hpos hpad⟩
          simpa [mem_base64 hv] using hmem

def WellFormed (t : List Char) : Prop :=
  t.length % 4 = 0 ∧ ∃ body k, t = body ++ replicate k '=' ∧ k ≤ 2 ∧ ∀ c ∈ body, c ∈ base64

theorem decodeLoop_safe (hsize : written.length + t.length * 3 / 4 ≤ size) :
    ∃ r, decodeLoop size t written = .ok r ∧ (r ≠ [] → WellFormed t) := by
  fun_induction decodeLoop size t written with
  | case1 written => exact ⟨written, rfl, fun _ => ⟨rfl, [], 0, rfl, by decide, by simp⟩⟩
  | case2 | case3 | case5 => exact ⟨[], rfl, fun h => absurd rfl h⟩
  | case4 a b c d rest written packed padding hread hcond ih =>
    obtain ⟨body, k, hgroup, hk, hmem, -⟩ := readGroup_eq_some hread
    have hthree : (groupBytes packed padding).length ≤ 3 := by
      unfold groupBytes
      split <;> split <;> simp
    simp only [length_cons] at hsize
    have hwrite : write size written (groupBytes packed padding) =
        .ok (written ++ groupBytes packed padding) := if_pos (by omega)
    obtain ⟨r, hr, hwf⟩ := ih (written ++ groupBytes packed padding) (by
      rw [length_append]
      omega)
    refine ⟨r, by rw [hwrite]; exact hr, fun hne => ?_⟩
    obtain ⟨hlen, body', k', hrest, hk', hmem'⟩ := hwf hne
    refine ⟨by simp only [length_cons]; omega, ?_⟩
    rw [show a :: b :: c :: d :: rest = [a, b, c, d] ++ rest from rfl, hgroup]
    -- a round with padding is the last one
    by_cases hzero : k = 0
    · refine ⟨body ++ body', k', by simp [hzero, hrest], hk', fun x hx => ?_⟩
      exact (mem_append.mp hx).elim (hmem x) (hmem' x)
    · obtain rfl : rest = [] := by
        by_contra hne
        exact hcond (.inl ⟨by omega, hne⟩)
      exact ⟨body, k, append_nil _, by omega, hmem⟩

theorem read_encodeGroup (hpacked : packed < 2 ^ 24) (hpad : padding ≤ 2)
    (hzero : packed % 2 ^ (8 * padding) = 0) :
    readGroup (encodeGroup packed padding) 0 0 = some (packed, padding) := by
  have h0 := value_digit (packed >>> 18) (by omega)
  have h1 := value_digit (packed >>> 12 % 64) (by omega)
  have h2 := value_digit (packed >>> 6 % 64) (by omega)
  have h3 := value_digit (packed % 64) (by omega)
  interval_cases padding <;>
    simp [encodeGroup, readGroup, h0, h1, h2, h3, replicate] <;> omega

theorem decodeLoop_group
    (hpacked : packed < 2 ^ 24) (hpad : padding ≤ 2) (hzero : packed % 2 ^ (8 * padding) = 0)
    (hlast : padding = 0 ∨ rest = [])
    (hsize : written.length + (groupBytes packed padding).length ≤ size) :
    decodeLoop size (encodeGroup packed padding ++ rest) written =
      decodeLoop size rest (written ++ groupBytes packed padding) := by
  have hread := read_encodeGroup hpacked hpad hzero
  obtain ⟨w, x, y, z, hgroup⟩ : ∃ w x y z, encodeGroup packed padding = [w, x, y, z] := by
    interval_cases padding <;> exact ⟨_, _, _, _, rfl⟩
  have hcond : ¬ (padding > 0 ∧ rest ≠ [] ∨ padding > 2) := by
    rcases hlast with rfl | rfl <;> simp [hpad]
  rw [hgroup] at hread ⊢
  simp only [cons_append, nil_append, decodeLoop, hread, if_neg hcond, write, if_pos hsize]
  rfl

theorem groupBytes_pack (a b c) :
    groupBytes (pack a b c) 0 = [a, b, c] ∧ groupBytes (pack a b c) 1 = [a, b] ∧
      groupBytes (pack a b c) 2 = [a] := by
  have ha : BitVec.ofNat 8 (pack a b c >>> 16) = a := by
    apply BitVec.eq_of_toNat_eq
    simp [pack]
    omega
  have hb : BitVec.ofNat 8 (pack a b c >>> 8) = b := by
    apply BitVec.eq_of_toNat_eq
    simp [pack]
    omega
  have hc : BitVec.ofNat 8 (pack a b c) = c := by
    apply BitVec.eq_of_toNat_eq
    simp [pack]
    omega
  unfold groupBytes
  rw [ha, hb, hc]
  exact ⟨rfl, rfl, rfl⟩

theorem pack_lt (a b c) : pack a b c < 2 ^ 24 := by
  unfold pack
  omega

theorem decodeLoop_encode (hsize : written.length + s.length ≤ size) :
    decodeLoop size (base64encode s) written = .ok (written ++ s) := by
  induction s using base64encode.induct generalizing written with
  | case1 => simp [base64encode, decodeLoop]
  | case2 a =>
    obtain ⟨-, -, hbytes⟩ := groupBytes_pack a 0 0
    rw [base64encode, ← append_nil (encodeGroup _ _), decodeLoop_group (pack_lt ..) (by decide)
      (by simp [pack]) (.inr rfl) (by rwa [hbytes]), hbytes, decodeLoop]
  | case3 a b =>
    obtain ⟨-, hbytes, -⟩ := groupBytes_pack a b 0
    rw [base64encode, ← append_nil (encodeGroup _ _), decodeLoop_group (pack_lt ..) (by decide)
      (by simp [pack]; omega) (.inr rfl) (by rwa [hbytes]), hbytes, decodeLoop]
  | case4 a b c rest ih =>
    obtain ⟨hbytes, -, -⟩ := groupBytes_pack a b c
    simp only [length_cons] at hsize
    rw [base64encode, decodeLoop_group (pack_lt ..) (by decide) (Nat.mod_one _) (.inl rfl)
      (by rw [hbytes]; simp only [length_cons, length_nil]; omega), hbytes,
      ih (by simp only [length_append, length_cons, length_nil]; omega)]
    simp

theorem length_encode (s : List Byte) : s.length ≤ (base64encode s).length * 3 / 4 := by
  induction s using base64encode.induct with
  | case1 | case2 | case3 => simp [base64encode, encodeGroup]
  | case4 a b c rest ih =>
    simp [base64encode, encodeGroup]
    omega

theorem base64_roundtrip : (∀ s, base64decode (base64encode s) = .ok s) ∧
      ∀ t, ∃ r, base64decode t = .ok r ∧ (r ≠ [] → WellFormed t) :=
  ⟨fun s => decodeLoop_encode (by simpa using length_encode s), fun t => decodeLoop_safe (by simp)⟩

/-! ## `quick_hash` -/

/-- The search for the next delimiter, from behind `piece` on. -/
def splitLoop (isDelim : Char → Bool) (max : UInt64) (piece : List Char) :
    List Char → List (List Char)
  | [] => [piece]
  | c :: str =>
    if isDelim c then
      piece :: if max - 1 = 1 then [str] else splitLoop isDelim (max - 1) [] str
    else splitLoop isDelim max (piece ++ [c]) str

def split (str : List Char) (delim : Char) (max : UInt64) : List (List Char) :=
  if str.isEmpty then [] else splitLoop (· == delim) max [] str

structure Pieces (d : Char) (max : Nat) (s : List Char) (l : List (List Char)) : Prop where
  nonempty : l ≠ []
  joined : [d].intercalate l = s
  count : l.length ≤ max
  last : ∀ p ∈ l.dropLast, d ∉ p
  limit : (∃ p ∈ l, d ∈ p) → l.length = max

theorem Pieces.cons {max : Nat} (h : Pieces d max s l) (hp : d ∉ piece) :
    Pieces d (max + 1) (piece ++ d :: s) (piece :: l) := by
  obtain ⟨p, l, rfl⟩ := exists_cons_of_ne_nil h.nonempty
  refine ⟨cons_ne_nil _ _, ?_, Nat.succ_le_succ h.count, ?_, ?_⟩
  · rw [intercalate_cons_cons, h.joined]
    simp
  · rw [dropLast_cons_cons, forall_mem_cons]
    exact ⟨hp, h.last⟩
  · rw [exists_mem_cons_iff]
    rintro (hd | hd)
    · exact absurd hd hp
    · exact congrArg Nat.succ (h.limit hd)

theorem Pieces.single {max : Nat} (hmax : 1 ≤ max) (hp : d ∉ p) : Pieces d max p [p] :=
  ⟨cons_ne_nil _ _, by simp, hmax, nofun, by simpa using fun h => absurd h hp⟩

theorem splitLoop_single (hd : d ∉ s) (max piece) :
    splitLoop (· == d) max piece s = [piece ++ s] := by
  induction s generalizing piece with
  | nil => rw [splitLoop, append_nil]
  | cons c s ih =>
    rw [mem_cons, not_or] at hd
    rw [splitLoop, if_neg (by simpa using Ne.symm hd.1), ih hd.2, append_assoc, singleton_append]

theorem one_lt_splitLoop (hd : d ∈ s) (max piece) :
    1 < (splitLoop (· == d) max piece s).length := by
  induction s generalizing max piece with
  | nil => cases hd
  | cons c s ih =>
    rw [splitLoop]
    split
    · have hne : ∀ max piece s, splitLoop (· == d) max piece s ≠ [] := by
        intro max piece s
        fun_induction splitLoop (· == d) max piece s <;> simp_all
      split
      · exact Nat.one_lt_two
      · exact Nat.succ_lt_succ (length_pos_iff.mpr (hne _ _ _))
    · next hc => exact ih ((mem_cons.mp hd).resolve_left fun h => hc (by simp [h])) _ _

theorem pieces_splitLoop {max : UInt64} (hmax : 1 < max) (hp : d ∉ piece) (s) :
    Pieces d max.toNat (piece ++ s) (splitLoop (· == d) max piece s) := by
  induction s generalizing max piece with
  | nil =>
    have hpos : 1 ≤ max.toNat := Nat.le_of_lt hmax
    rw [splitLoop, append_nil]
    exact .single hpos hp
  | cons c s ih =>
    have hsub : max.toNat = (max - 1).toNat + 1 := by
      rw [UInt64.toNat_sub_of_le _ _ (Nat.le_of_lt hmax)]
      exact (Nat.sub_add_cancel (Nat.le_of_lt hmax)).symm
    rw [splitLoop]
    split
    · next hc =>
      rw [hsub, eq_of_beq hc]
      refine Pieces.cons ?_ hp
      split
      · next h1 =>
        rw [h1]
        exact ⟨cons_ne_nil _ _, by simp, Nat.le_refl 1, nofun, fun _ => rfl⟩
      · next h1 =>
        refine ih ?_ (not_mem_nil)
        rw [UInt64.lt_iff_toNat_lt] at hmax ⊢
        have hne : (max - 1).toNat ≠ 1 := fun h => h1 (UInt64.toNat.inj h)
        simp at hmax ⊢
        omega
    · next hc =>
      rw [append_cons]
      refine ih hmax ?_
      simpa using ⟨hp, fun h => hc (by simp [h])⟩

/-- Exactly from a limit of two on, or if there is nothing to cut. -/
theorem split_pieces (s : List Char) (hs : s ≠ []) (d : Char) (max : UInt64) (hmax : 1 ≤ max) :
    1 < max ∨ d ∉ s ↔ Pieces d max.toNat s (split s d max) := by
  rw [split, if_neg (by simpa using hs)]
  constructor
  · rintro (hlimit | hd)
    · exact pieces_splitLoop hlimit not_mem_nil s
    · rw [splitLoop_single hd]
      exact .single hmax hd
  · intro hpieces
    by_contra hcut
    rw [not_or, not_not] at hcut
    have hone : max = 1 := UInt64.le_antisymm (UInt64.not_lt.mp hcut.1) hmax
    exact absurd hpieces.count (Nat.not_le.mpr (hone ▸ one_lt_splitLoop hcut.2 max []))

theorem split_pieces_two : Pieces ',' 2 "a,b,c".toList (split "a,b,c".toList ',' 2) :=
  (split_pieces "a,b,c".toList (by decide) ',' 2 (by decide)).mp (.inl (by decide))

/-- The counter is one less before it is looked at. -/
theorem split_at_one : split "a,b".toList ',' 1 = [['a'], ['b']] := by decide

end Helens.HashUtil
