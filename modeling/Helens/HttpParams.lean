import Helens.Http
import Helens.Lib.Cuts
import Mathlib.Data.List.DropRight

/-! The parameters and cookies that `HttpRequest` of `http/http.cc` takes from its query, its
body and its headers, and when they are those of the segments of the text. -/

namespace Helens.Http
open Lib.Cuts List

/-! ## `util.cc` -/

def urlDecode : List UInt8 → List UInt8
  | [] => []
  | 43 :: s => 32 :: urlDecode s
  | 37 :: a :: b :: s =>
    if digitVal a < 16 ∧ digitVal b < 16 then
      UInt8.ofNat (digitVal a * 16 + digitVal b) :: urlDecode s
    else 37 :: urlDecode (a :: b :: s)
  | c :: s => c :: urlDecode s

def isDelimit (b : UInt8) : Bool := b ∈ ascii " \t\r\n"

def trim (str : List UInt8) : List UInt8 := (str.dropWhile isDelimit).rdropWhile isDelimit

/-! ## `http.cc` -/

def insertEntry (m : MapType) (e : List UInt8 × List UInt8) : MapType := putEntry false e m

/-- The loop of `PARSE_PARAM` over what is left of `str`. The search for `flag` begins at the
`=`, which is not `flag`. -/
def parseLoop (flag : UInt8) (trim : List UInt8 → List UInt8) :
    Nat → List UInt8 → MapType → MapType
  | 0, _, m => m
  | fuel + 1, str, m =>
    match str.dropWhile (· != 61) with
    | [] => m
    | _ :: rest =>
      let key := str.takeWhile (· != 61)
      let m := insertEntry m (trim key, urlDecode (rest.takeWhile (· != flag)))
      match rest.dropWhile (· != flag) with
      | [] => m
      | _ :: str => parseLoop flag trim fuel str m

def parseParam (str : List UInt8) (m : MapType) (flag : UInt8)
    (trim : List UInt8 → List UInt8) : MapType := parseLoop flag trim (str.length + 1) str m

structure Params where
  params : MapType := []
  cookies : MapType := []
  parserParamFlag : Nat := 0
  deriving DecidableEq

def HttpRequest.getHeader (r : HttpRequest) (key : String) : List UInt8 :=
  (findEntry (ascii key) r.headers).getD []

def initQueryParam (r : HttpRequest) (s : Params) : Params :=
  if s.parserParamFlag &&& 1 ≠ 0 then s
  else
    { s with
      params := parseParam r.query s.params 38 id
      parserParamFlag := s.parserParamFlag ||| 1 }

def isForm (r : HttpRequest) : Prop :=
  ascii "application/x-www-form-urlencoded" <:+: (cStr (r.getHeader "content-type")).map toLower
  deriving Decidable

def initBodyParam (r : HttpRequest) (s : Params) : Params :=
  if s.parserParamFlag &&& 2 ≠ 0 then s
  else if isForm r then
    { s with
      params := parseParam r.body s.params 38 id
      parserParamFlag := s.parserParamFlag ||| 2 }
  else { s with parserParamFlag := s.parserParamFlag ||| 2 }

def initCookies (r : HttpRequest) (s : Params) : Params :=
  if s.parserParamFlag &&& 4 ≠ 0 then s
  else if (r.getHeader "cookie").isEmpty then
    { s with parserParamFlag := s.parserParamFlag ||| 4 }
  else
    { s with
      cookies := parseParam (r.getHeader "cookie") s.cookies 59 trim
      parserParamFlag := s.parserParamFlag ||| 4 }

def initParam (r : HttpRequest) (s : Params) : Params :=
  initCookies r (initBodyParam r (initQueryParam r s))

/-! ## Segments -/

def segmentParam (trim : List UInt8 → List UInt8) (seg : List UInt8) :
    Option (List UInt8 × List UInt8) :=
  match seg.dropWhile (· != 61) with
  | [] => none
  | _ :: v => some (trim (seg.takeWhile (· != 61)), urlDecode v)

def segmentParams (flag : UInt8) (trim : List UInt8 → List UInt8) (text : List UInt8) : MapType :=
  (text.splitOn flag).filterMap (segmentParam trim)

def splitParams (r : HttpRequest) : Params where
  params := (segmentParams 38 id r.query ++
    if isForm r then segmentParams 38 id r.body else []).foldl insertEntry []
  cookies := (segmentParams 59 trim (r.getHeader "cookie")).foldl insertEntry []
  parserParamFlag := 7

/-- No segment without a `=` stands before one that has it. -/
def Ordered (flag : UInt8) (text : List UInt8) : Prop :=
  (text.splitOn flag).Pairwise fun a b => 61 ∈ b → 61 ∈ a
  deriving Decidable

theorem mem_splitOn (a flag) (text : List UInt8) :
    (∃ s ∈ text.splitOn flag, a ∈ s) ↔ a ∈ text ∧ a ≠ flag := by
  induction text with
  | nil => simp
  | cons x text ih =>
    rw [splitOn_cons_eq_if_modifyHead]
    split
    · next hx =>
      obtain rfl : x = flag := by simpa using hx
      grind
    · next hx =>
      obtain ⟨s, segs, hs⟩ := exists_cons_of_ne_nil (splitOn_ne_nil flag text)
      rw [hs] at ih ⊢
      simp only [modifyHead_cons, mem_cons] at ih ⊢
      grind

/-! ## Joined segments -/

/-- The bytes that the keys are compared by. -/
def keyBytes (m : MapType) : List UInt8 := m.flatMap fun e => (cStr e.1).map toLower

theorem keyBytes_nil : keyBytes [] = [] := rfl

theorem mem_keyBytes_insertEntry (b e m) :
    b ∈ keyBytes (insertEntry m e) ↔ b ∈ keyBytes (e :: m) := by
  unfold insertEntry
  induction m with
  | nil => rfl
  | cons x m ih =>
    rw [putEntry]
    split
    · next hsame =>
      have hsame := eq_of_beq hsame
      simp [keyBytes, hsame]
    · split
      · rfl
      · simp_all only [keyBytes, flatMap_cons, mem_append, or_left_comm]

theorem mem_keyBytes_foldl (b es m) :
    b ∈ keyBytes (es.foldl insertEntry m) ↔ b ∈ keyBytes es ∨ b ∈ keyBytes m := by
  induction es generalizing m with
  | nil => simp [keyBytes]
  | cons e es ih =>
    simp only [foldl_cons, ih, mem_keyBytes_insertEntry]
    simp [keyBytes, or_assoc, or_left_comm]

/-- A separator that is no letter, and keys of bytes of the text that keep it. -/
structure Separates (flag : UInt8) (clean : List UInt8 → List UInt8) : Prop where
  ne : 61 ≠ flag
  lt : flag < 65
  subset : ∀ s, clean s ⊆ s
  keep : ∀ s, flag ∈ s → flag ∈ clean s

variable {flag : UInt8} {clean : List UInt8 → List UInt8}

theorem Separates.notMem_keyBytes (h : Separates flag clean) (text) :
    flag ∉ keyBytes (segmentParams flag clean text) := by
  intro hmem
  obtain ⟨e, he, hmem⟩ := mem_flatMap.mp hmem
  obtain ⟨s, hs, hseg⟩ := mem_filterMap.mp he
  obtain ⟨b, hb, hlow⟩ := mem_map.mp hmem
  obtain rfl : b = flag := by
    unfold toLower at hlow
    split at hlow
    · have hlt := h.lt
      rw [← hlow] at hlt
      simp only [UInt8.lt_iff_toNat_lt, UInt8.le_iff_toNat_le, UInt8.toNat_add,
        UInt8.reduceToNat] at *
      omega
    · exact hlow
  rw [segmentParam] at hseg
  split at hseg
  · cases hseg
  · obtain rfl := Option.some.inj hseg
    have hkey := h.subset _ ((takeWhile_sublist _).subset hb)
    exact ((mem_splitOn b b text).mp ⟨s, hs, (takeWhile_sublist _).subset hkey⟩).2 rfl

theorem Separates.mem_keyBytes (h : Separates flag clean) (hk : flag ∈ k) (h0 : 0 ∉ k) (v es) :
    flag ∈ keyBytes ((clean k, v) :: es) := by
  have hnul : ∀ b ∈ clean k, decide (b ≠ 0) = true := by
    intro b hb
    have hmem := h.subset _ hb
    grind
  rw [keyBytes, flatMap_cons, cStr, takeWhile_eq_self_iff.mpr hnul]
  exact mem_append_left _ (mem_map.mpr ⟨flag, h.keep k hk, if_neg fun hle =>
    absurd hle.1 (UInt8.not_le.mpr h.lt)⟩)

/-- A separator before the first `=` joins a segment without one to a later one. -/
theorem not_ordered (hne : 61 ≠ flag) (hk : 61 ∉ k) (w) (hin : flag ∈ k) :
    ¬ Ordered flag (k ++ 61 :: w) := by
  obtain ⟨s, k, rfl, hs⟩ := eq_append_cons_of_mem hin
  rw [append_assoc, cons_append, Ordered, splitOn_append_cons_self_of_not_mem hs, pairwise_cons]
  intro hord
  obtain ⟨b, hb, h61⟩ := (mem_splitOn 61 flag (k ++ 61 :: w)).mpr ⟨by simp, hne⟩
  exact hk (mem_append_left _ (hord.1 b hb h61))

/-- What the loop stores: the segments if they are ordered, and else a key that joins two. -/
theorem Separates.parseLoop_eq (h : Separates flag clean) (hf : text.length < fuel) :
    ∃ es : MapType, (∀ m, parseLoop flag clean fuel text m = es.foldl insertEntry m) ∧
      (Ordered flag text → es = segmentParams flag clean text) ∧
      (¬ Ordered flag text → 0 ∉ text → flag ∈ keyBytes es) := by
  induction fuel generalizing text with
  | zero => exact absurd hf (Nat.not_lt_zero _)
  | succ fuel ih =>
    by_cases heq : 61 ∈ text
    swap
    · have hnone : ∀ s ∈ text.splitOn flag, 61 ∉ s := fun s hs hin =>
        heq ((mem_splitOn 61 flag text).mp ⟨s, hs, hin⟩).1
      refine ⟨[], fun m => by simp [parseLoop, (cut_of_notMem heq).2], fun _ => ?_, fun hnot => ?_⟩
      · refine (filterMap_eq_nil_iff.mpr fun s hs => ?_).symm
        rw [segmentParam, (cut_of_notMem (hnone s hs)).2]
      · exact absurd (pairwise_iff_getElem.mpr fun i j _ hj _ hin =>
          absurd hin (hnone _ (getElem_mem hj))) hnot
    obtain ⟨k, w, rfl, hk⟩ := eq_append_cons_of_mem heq
    have hjoin := not_ordered h.ne hk w
    by_cases hw : flag ∈ w
    · obtain ⟨v, more, rfl, hv⟩ := eq_append_cons_of_mem hw
      have hlen : more.length < fuel := by
        simp only [length_append, length_cons] at hf
        omega
      obtain ⟨es, hes, hord, hjoined⟩ := ih hlen
      refine ⟨(clean k, urlDecode v) :: es, fun m => ?_, ?_⟩
      · simp [parseLoop, cut_append hk, cut_append hv, hes]
      by_cases hin : flag ∈ k
      · exact ⟨fun ho => absurd ho (hjoin hin), fun _ h0 => h.mem_keyBytes hin (by simp_all) ..⟩
      · have hsplit : (k ++ 61 :: (v ++ flag :: more)).splitOn flag =
            (k ++ 61 :: v) :: more.splitOn flag := by
          rw [← cons_append, ← append_assoc,
            splitOn_append_cons_self_of_not_mem (by simp [hin, hv, h.ne.symm])]
        rw [segmentParams, Ordered, hsplit, pairwise_cons]
        refine ⟨fun ho => ?_, fun hno h0 => ?_⟩
        · simp [segmentParam, cut_append hk, hord ho.2, segmentParams]
        · exact mem_append_right _ (hjoined (fun ho => hno ⟨by simp, ho⟩) (by simp_all))
    · refine ⟨[(clean k, urlDecode w)], fun m => ?_, ?_⟩
      · simp [parseLoop, cut_append hk, cut_of_notMem hw]
      by_cases hin : flag ∈ k
      · exact ⟨fun ho => absurd ho (hjoin hin), fun _ h0 => h.mem_keyBytes hin (by simp_all) ..⟩
      · rw [segmentParams, Ordered, splitOn_eq_singleton (by simp [hin, hw, h.ne.symm])]
        refine ⟨fun _ => ?_, fun hno => absurd (pairwise_singleton ..) hno⟩
        simp [segmentParam, cut_append hk]

theorem separates_id : Separates 38 id := ⟨by decide, by decide, fun _ _ => id, fun _ => id⟩

theorem separates_trim : Separates 59 trim where
  ne := by decide
  lt := by decide
  subset s b hb := by
    rw [trim, rdropWhile, mem_reverse] at hb
    exact (dropWhile_sublist _).subset (mem_reverse.mp ((dropWhile_sublist _).subset hb))
  keep s hs := by
    have hkeep : ∀ s : List UInt8, 59 ∈ s → 59 ∈ s.dropWhile isDelimit := by
      intro s hs
      rw [← takeWhile_append_dropWhile (p := isDelimit) (l := s), mem_append] at hs
      exact hs.resolve_left fun hs => absurd (mem_takeWhile_imp hs) (by decide)
    rw [trim, rdropWhile, mem_reverse]
    exact hkeep _ (mem_reverse.mpr (hkeep s hs))

def AllOrdered (r : HttpRequest) : Prop :=
  Ordered 38 r.query ∧ (isForm r → Ordered 38 r.body) ∧ Ordered 59 (r.getHeader "cookie")
  deriving Decidable

/-- The maps are those of the segments if no segment without a `=` stands before one that has it,
and for texts without NUL bytes only then. -/
theorem params_as_split (r : HttpRequest) :
    (AllOrdered r → initParam r {} = splitParams r) ∧
      (0 ∉ r.query → (isForm r → 0 ∉ r.body) → 0 ∉ r.getHeader "cookie" →
        initParam r {} = splitParams r → AllOrdered r) := by
  obtain ⟨qs, hqs, hq, hq'⟩ := separates_id.parseLoop_eq (Nat.lt_succ_self r.query.length)
  obtain ⟨bs, hbs, hb, hb'⟩ := separates_id.parseLoop_eq (Nat.lt_succ_self r.body.length)
  obtain ⟨cs, hcs, hc, hc'⟩ :=
    separates_trim.parseLoop_eq (Nat.lt_succ_self (r.getHeader "cookie").length)
  have hcookies : ∀ m, initCookies r ⟨m, [], 3⟩ = ⟨m, cs.foldl insertEntry [], 7⟩ := by
    intro m
    by_cases hempty : r.getHeader "cookie" = []
    · simp [initCookies, hempty, ← hcs, parseLoop]
    · simp [initCookies, hempty, parseParam, hcs]
  have hinit : initParam r {} =
      ⟨(qs ++ if isForm r then bs else []).foldl insertEntry [], cs.foldl insertEntry [], 7⟩ := by
    by_cases hform : isForm r <;>
      simp [initParam, initQueryParam, initBodyParam, parseParam, hform, hqs, hbs, hcookies]
  rw [hinit, splitParams]
  refine ⟨fun h => ?_, fun hq0 hb0 hc0 heq => ?_⟩
  · rw [hq h.1, hc h.2.2]
    split
    · next hform => rw [hb (h.2.1 hform)]
    · rfl
  · obtain ⟨hparams, hcookies, -⟩ := Params.mk.inj heq
    have hparams : (isForm r → 38 ∉ keyBytes bs) ∧ 38 ∉ keyBytes qs := by
      have hmem := congrArg (38 ∈ keyBytes ·) hparams
      by_cases hform : isForm r <;>
        simpa [hform, mem_keyBytes_foldl, keyBytes_nil, separates_id.notMem_keyBytes] using hmem
    have hcookies : 59 ∉ keyBytes cs := by
      have hmem := congrArg (59 ∈ keyBytes ·) hcookies
      simpa [mem_keyBytes_foldl, keyBytes_nil, separates_trim.notMem_keyBytes] using hmem
    exact ⟨not_not.mp fun hno => hparams.2 (hq' hno hq0), fun hform => not_not.mp fun hno =>
      hparams.1 hform (hb' hno (hb0 hform)), not_not.mp fun hno => hcookies (hc' hno hc0)⟩

theorem params_as_split_two : initParam { query := ascii "a=1&B=x%20y&A=2" } {} =
      { params := [(ascii "a", ascii "1"), (ascii "B", ascii "x y")], parserParamFlag := 7 } :=
  ((params_as_split _).1 (by decide +kernel)).trans (by decide +kernel)

/-- A segment without a `=` becomes part of the key of the next one. -/
theorem params_joined : ¬ ∀ r : HttpRequest, initParam r {} = splitParams r := by
  intro h
  exact absurd (h { query := ascii "a&b=1" }) (by decide +kernel)

end Helens.Http
