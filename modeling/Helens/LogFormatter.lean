import Mathlib.Data.List.Basic

/-! `LogFormatter::init` of `log.cc`: the pattern of a formatter is cut into its items. -/

namespace Helens.LogFormatter
open List

abbrev Text := List Char

/-! ## The code -/

/-- The loop behind a `{`; `none` if the brace stays open. -/
def readFormat (str fmt : Text) : Text → Option (Text × Text × Text)
  | [] => none
  | c :: rest => if c = '}' then some (str, fmt, rest) else readFormat str (fmt ++ [c]) rest

/-- The loop behind a `%`: the name, the format, and what is left. -/
def readName (str : Text) : Text → Option (Text × Text × Text)
  | [] => some (str, [], [])
  | c :: rest =>
    if c = '{' then readFormat str [] rest
    else if c.isAlpha ∨ c = '}' then readName (str ++ [c]) rest
    else some (str, [], c :: rest)

/-- An element of `vec`, of type 0 or 1. -/
inductive Part
  | text (s : Text)
  | directive (str fmt : Text)

def flush (nstr : Text) : List Part := if nstr.isEmpty then [] else [.text nstr]

/-- Every round takes at least one letter; the flag is `m_error`. -/
def scan : Nat → Text → Text → List Part × Bool
  | fuel + 1, nstr, c :: rest =>
    if c ≠ '%' then scan fuel (nstr ++ [c]) rest
    else if rest.head? = some '%' then scan fuel (nstr ++ ['%']) rest
    else match readName [] rest with
      | some (str, fmt, left) => (flush nstr ++ .directive str fmt :: (scan fuel [] left).1,
          (scan fuel [] left).2)
      | none => (.text "<<pattern_error>>".toList :: (scan fuel nstr rest).1, true)
  | _, nstr, _ => (flush nstr, false)

/-- A `StringFormatItem`, or the class that `s_format_items` has for a name. -/
inductive FormatItem
  | string (s : Text)
  | item (name fmt : Text)
  deriving DecidableEq

def formatItems : List Text :=
  [['m'], ['p'], ['r'], ['c'], ['t'], ['n'], ['d'], ['f'], ['l'], ['T'], ['F'], ['N']]

def Part.item : Part → FormatItem
  | .text s => .string s
  | .directive str fmt => if formatItems.contains str then .item str fmt
    else .string ("<<error_format %".toList ++ str ++ ">>".toList)

def Part.unknown : Part → Bool
  | .text _ => false
  | .directive str _ => !formatItems.contains str

/-- The items, and `m_error`. -/
def init (pattern : Text) : List FormatItem × Bool :=
  let (vec, error) := scan pattern.length [] pattern
  (vec.map Part.item, error || vec.any Part.unknown)

/-! ## Tokens -/

inductive Token
  | literal (s : Text)
  | directive (name : Text) (fmt : Option Text)
  | percent

def render : List Token → Text
  | [] => []
  | .literal s :: ts => s ++ render ts
  | .directive name none :: ts => '%' :: name ++ render ts
  | .directive name (some fmt) :: ts => '%' :: name ++ '{' :: fmt ++ '}' :: render ts
  | .percent :: ts => '%' :: '%' :: render ts

/-- Literals that follow each other, and `%%`, make one part. -/
def parts (nstr : Text) : List Token → List Part
  | [] => flush nstr
  | .literal s :: ts => parts (nstr ++ s) ts
  | .directive name fmt :: ts => flush nstr ++ .directive name (fmt.getD []) :: parts [] ts
  | .percent :: ts => parts (nstr ++ ['%']) ts

/-- No letter and no brace follows a name without a format. -/
inductive WellFormed : List Token → Prop
  | nil : WellFormed []
  | literal (h : '%' ∉ s) (hts : WellFormed ts) : WellFormed (.literal s :: ts)
  | directive (hname : name ≠ []) (h : ∀ c ∈ name, c.isAlpha) (hfmt : ∀ f ∈ fmt, '}' ∉ f)
    (hnext : fmt = none → ∀ c ∈ (render ts).head?, ¬ c.isAlpha ∧ c ≠ '{' ∧ c ≠ '}')
    (hts : WellFormed ts) : WellFormed (.directive name fmt :: ts)
  | percent (hts : WellFormed ts) : WellFormed (.percent :: ts)

theorem readFormat_append (h : '}' ∉ f) (str fmt rest) :
    readFormat str fmt (f ++ '}' :: rest) = some (str, fmt ++ f, rest) := by
  induction f generalizing fmt with
  | nil => simp [readFormat]
  | cons c f ih =>
    rw [mem_cons, not_or] at h
    rw [cons_append, readFormat, if_neg (Ne.symm h.1), ih h.2, append_assoc, singleton_append]

theorem readName_append (h : ∀ c ∈ name, c.isAlpha) (str rest) :
    readName str (name ++ rest) = readName (str ++ name) rest := by
  induction name generalizing str with
  | nil => rw [nil_append, append_nil]
  | cons c name ih =>
    rw [forall_mem_cons] at h
    have hc : c ≠ '{' := fun hc => absurd h.1 (by rw [hc]; decide)
    rw [cons_append, readName, if_neg hc, if_pos (.inl h.1), ih h.2, append_assoc, singleton_append]

theorem scan_literal (h : '%' ∉ s) (fuel nstr rest) :
    scan (s.length + fuel) nstr (s ++ rest) = scan fuel (nstr ++ s) rest := by
  induction s generalizing nstr with
  | nil => simp
  | cons c s ih =>
    rw [mem_cons, not_or] at h
    rw [length_cons, Nat.add_right_comm, cons_append, scan, if_pos (Ne.symm h.1), ih h.2,
      append_assoc, singleton_append]

theorem scan_directive (hname : name ≠ []) (h : ∀ c ∈ name, c.isAlpha) (hfmt : ∀ f ∈ fmt, '}' ∉ f)
    (hnext : fmt = none → ∀ c ∈ (render ts).head?, ¬ c.isAlpha ∧ c ≠ '{' ∧ c ≠ '}')
    (fuel nstr) : scan (fuel + 1) nstr (render (.directive name fmt :: ts)) =
      (flush nstr ++ .directive name (fmt.getD []) :: (scan fuel [] (render ts)).1,
        (scan fuel [] (render ts)).2) := by
  obtain ⟨rest, hrest, hread⟩ : ∃ rest, render (.directive name fmt :: ts) = '%' :: name ++ rest ∧
      readName name rest = some (name, fmt.getD [], render ts) := by
    cases fmt with
    | none =>
      refine ⟨render ts, rfl, ?_⟩
      cases hts : render ts with
      | nil => rfl
      | cons c rest => simp_all [readName]
    | some f =>
      refine ⟨'{' :: f ++ '}' :: render ts, by simp [render], ?_⟩
      rw [cons_append, readName, if_pos rfl, readFormat_append (hfmt f rfl)]
      rfl
  obtain ⟨c, cs, rfl⟩ := exists_cons_of_ne_nil hname
  have hc : c ≠ '%' := fun hc => absurd (h c mem_cons_self) (by rw [hc]; decide)
  rw [hrest, cons_append, scan, if_neg (not_not.mpr rfl), if_neg (by simpa using hc),
    readName_append h, nil_append, hread]

theorem length_directive (name fmt ts) :
    (render ts).length < (render (.directive name fmt :: ts)).length := by
  cases fmt <;> simp [render] <;> omega

theorem scan_render (h : WellFormed ts) (hno : .percent ∉ ts) (hfuel : (render ts).length ≤ fuel)
    (nstr) : scan fuel nstr (render ts) = (parts nstr ts, false) := by
  induction h generalizing fuel nstr with
  | nil => cases fuel <;> rfl
  | literal hs hts ih =>
    rw [render, length_append] at hfuel
    obtain ⟨k, rfl⟩ := Nat.exists_eq_add_of_le (Nat.le_of_add_right_le hfuel)
    rw [render, scan_literal hs, ih (fun hp => hno (.tail _ hp)) (by omega), parts]
  | @directive name fmt ts hname hs hfmt hnext hts ih =>
    have hlt := length_directive name fmt ts
    obtain ⟨k, rfl⟩ := Nat.exists_eq_add_of_le' (show 1 ≤ fuel by omega)
    rw [scan_directive hname hs hfmt hnext, ih (fun hp => hno (.tail _ hp)) (by omega), parts]
  | percent hts => exact absurd mem_cons_self hno

/-! ### `%%` -/

theorem flush_of_mem (h : c ∈ nstr) : flush nstr = [.text nstr] :=
  if_neg (by simpa using ne_nil_of_mem h)

theorem parts_head (h : '%' ∈ nstr) (ts) : ∃ s tail, parts nstr ts = .text (nstr ++ s) :: tail := by
  induction ts generalizing nstr with
  | nil => exact ⟨[], [], by rw [parts, flush_of_mem h, append_nil]⟩
  | cons x ts ih =>
    cases x with
    | literal s =>
      obtain ⟨u, tail, heq⟩ := ih (mem_append_left s h)
      exact ⟨s ++ u, tail, by rw [parts, heq, append_assoc]⟩
    | directive => exact ⟨[], _, by rw [parts, flush_of_mem h, append_nil]; rfl⟩
    | percent =>
      obtain ⟨u, tail, heq⟩ := ih (mem_append_left ['%'] h)
      exact ⟨'%' :: u, tail, by rw [parts, heq, append_assoc, singleton_append]⟩

/-- A `%` before another character ends the text, or shows an open brace. -/
theorem scan_last (hn : '%' ∈ n) (hnext : rest.head? ≠ some '%') (m fuel)
    (hlast : ∀ tail, parts n ts = .text (n ++ replicate m '%') :: tail → tail = []) :
    (scan (fuel + 1) (n ++ replicate m '%') ('%' :: rest)).1.map Part.item ≠
      (parts n ts).map Part.item := by
  obtain ⟨s, tail, heq⟩ := parts_head hn ts
  rw [scan, if_neg (not_not.mpr rfl), if_neg hnext, heq]
  intro hitems
  split at hitems
  · rw [flush_of_mem (mem_append_left _ hn)] at hitems
    obtain ⟨hhead, htail⟩ := cons.inj hitems
    rw [hlast tail (by rw [heq, FormatItem.string.inj hhead])] at htail
    cases htail
  · have htext := FormatItem.string.inj (cons.inj hitems).1
    exact absurd (htext ▸ mem_append_left s hn) (by decide)

/-- One `%` too much in front, and `m` more in the text. -/
theorem scan_second (h : WellFormed ts) (hn : '%' ∈ n) (m) (hfuel : (render ts).length ≤ fuel) :
    (scan (fuel + 1) (n ++ replicate m '%') ('%' :: render ts)).1.map Part.item ≠
      (parts n ts).map Part.item := by
  induction h generalizing n m fuel with
  | nil =>
    refine scan_last hn (by simp [render]) m fuel fun tail heq => ?_
    rw [parts, flush_of_mem hn] at heq
    exact (cons.inj heq).2.symm
  | @literal s ts hs hts ih =>
    cases s with
    | nil => simpa only [render, parts, nil_append, append_nil] using ih hn m hfuel
    | cons c s =>
      rw [mem_cons, not_or] at hs
      refine scan_last hn (by simpa [render] using Ne.symm hs.1) m fuel fun tail heq => ?_
      obtain ⟨u, tail', hparts⟩ := parts_head (mem_append_left (c :: s) hn) ts
      rw [parts, hparts, append_assoc] at heq
      have htext := append_cancel_left (Part.text.inj (cons.inj heq).1)
      have hc : c ∈ replicate m '%' := htext ▸ by simp
      exact absurd (eq_of_mem_replicate hc) (Ne.symm hs.1)
  | @directive name fmt ts hname hs hfmt hnext hts =>
    have hlt := length_directive name fmt ts
    obtain ⟨k, rfl⟩ := Nat.exists_eq_add_of_le' (show 1 ≤ fuel by omega)
    have hscan := scan_directive hname hs hfmt hnext k (n ++ replicate m '%' ++ ['%'])
    have hpair : ∀ nstr, scan (k + 2) nstr ('%' :: render (.directive name fmt :: ts)) =
        scan (k + 1) (nstr ++ ['%']) (render (.directive name fmt :: ts)) := by
      cases fmt <;> exact fun _ => rfl
    rw [hpair, hscan, parts, flush_of_mem (c := '%') (by simp), flush_of_mem hn]
    intro hitems
    simpa using FormatItem.string.inj (cons.inj hitems).1
  | percent hts ih =>
    rw [render, length_cons, length_cons] at hfuel
    obtain ⟨k, rfl⟩ := Nat.exists_eq_add_of_le' (show 2 ≤ fuel by omega)
    have hnext := ih (mem_append_left ['%'] hn) (m + 1) (show _ ≤ k by omega)
    rwa [append_assoc, singleton_append, ← replicate_succ, replicate_succ', replicate_succ',
      ← append_assoc, ← append_assoc] at hnext

theorem scan_items (h : WellFormed ts) (hp : .percent ∈ ts) (hfuel : (render ts).length ≤ fuel)
    (nstr) : (scan fuel nstr (render ts)).1.map Part.item ≠ (parts nstr ts).map Part.item := by
  induction h generalizing fuel nstr with
  | nil => cases hp
  | literal hs hts ih =>
    rw [render, length_append] at hfuel
    obtain ⟨k, rfl⟩ := Nat.exists_eq_add_of_le (Nat.le_of_add_right_le hfuel)
    rw [render, scan_literal hs, parts]
    exact ih (by simpa using hp) (by omega) _
  | @directive name fmt ts hname hs hfmt hnext hts ih =>
    have hlt := length_directive name fmt ts
    obtain ⟨k, rfl⟩ := Nat.exists_eq_add_of_le' (show 1 ≤ fuel by omega)
    rw [scan_directive hname hs hfmt hnext, parts]
    simpa using ih (by simpa using hp) (by omega) []
  | percent hts =>
    rw [render, length_cons, length_cons] at hfuel
    obtain ⟨k, rfl⟩ := Nat.exists_eq_add_of_le' (show 2 ≤ fuel by omega)
    have hnext := scan_second hts (mem_append_right nstr (mem_singleton_self '%')) 0
      (show _ ≤ k by omega)
    rwa [replicate_zero, append_nil] at hnext

theorem unknown_parts (nstr ts) : (parts nstr ts).any Part.unknown = false ↔
    ∀ name fmt, .directive name fmt ∈ ts → name ∈ formatItems := by
  induction ts generalizing nstr with
  | nil => cases nstr <;> simp [parts, flush, Part.unknown]
  | cons x ts ih =>
    cases x <;> cases nstr <;> simp_all [parts, flush, Part.unknown, or_imp, forall_and]

/-- A pattern gives the items of its tokens exactly if none of them is `%%`. -/
theorem init_items (ts : List Token) (h : WellFormed ts) : .percent ∉ ts ↔
    (init (render ts)).1 = (parts [] ts).map Part.item ∧ ((init (render ts)).2 = false ↔
      ∀ name fmt, .directive name fmt ∈ ts → name ∈ formatItems) := by
  constructor
  · intro hno
    rw [init, scan_render h hno (Nat.le_refl _)]
    exact ⟨rfl, unknown_parts [] ts⟩
  · rintro ⟨hitems, -⟩ hp
    exact scan_items h hp (Nat.le_refl _) [] hitems

theorem init_items_date : (init "%d{%Y} %m".toList).1 =
    [.item ['d'] "%Y".toList, .string [' '], .item ['m'] []] :=
  ((init_items [.directive ['d'] "%Y".toList, .literal [' '], .directive ['m'] none]
    (.directive (by decide) (forall_mem_singleton.mpr rfl) (by simp) nofun (.literal (by decide)
      (.directive (by decide) (forall_mem_singleton.mpr rfl) nofun nofun .nil)))).mp (by simp)).1

/-- The second `%` of `%%` starts a directive. -/
theorem percent_read_twice :
    init (render [.percent]) = ([.string ['%'], .string "<<error_format %>>".toList], true) := by
  decide

end Helens.LogFormatter
