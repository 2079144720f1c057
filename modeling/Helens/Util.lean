import Helens.Config
import Helens.HttpParams

/-! `util.cc`: `UrlEncode` and `UrlDecode`, which copy a text from its first byte on that changes,
trimming, and the conversions between YAML and Json; `Escape` of `json_util.cc`. -/

namespace Helens.StringUtil
open Http List

/-- The bytes before `c`, and `*ss` once it is there. -/
structure Copy where
  passed : List UInt8 := []
  ss : Option (List UInt8) := none

namespace Copy

def text (copy : Copy) : List UInt8 := copy.ss.getD copy.passed

def change (copy : Copy) (bytes x : List UInt8) : Copy where
  passed := copy.passed ++ bytes
  ss := some (copy.text ++ x)

def keep (copy : Copy) (c : UInt8) : Copy where
  passed := copy.passed ++ [c]
  ss := copy.ss.map (· ++ [c])

variable (copy : Copy)

@[simp] theorem text_change (bytes x) :
    (copy.change bytes x).text = copy.text ++ x := rfl

@[simp] theorem text_keep (c) : (copy.keep c).text = copy.text ++ [c] := by
  cases h : copy.ss <;> simp [text, keep, h]

end Copy

def isUnreserved (c : UInt8) : Bool :=
  c ∈ ascii "-.=_~" || (48 ≤ c && c ≤ 57) || (65 ≤ c && c ≤ 90) || (97 ≤ c && c ≤ 122)

def hexDigit (n : Nat) : UInt8 := (ascii "0123456789ABCDEF").getD n 0

variable (spaceAsPlus : Bool)

def encodeLoop (copy : Copy) : List UInt8 → List UInt8
  | [] => copy.text
  | c :: s =>
    if isUnreserved c then encodeLoop (copy.keep c) s
    else if c = 32 ∧ spaceAsPlus then encodeLoop (copy.change [c] [43]) s
    else encodeLoop (copy.change [c] [37, hexDigit (c.toNat / 16), hexDigit (c.toNat % 16)]) s

def urlEncode (str : List UInt8) : List UInt8 := encodeLoop spaceAsPlus {} str

def decodeLoop (copy : Copy) : List UInt8 → List UInt8
  | [] => copy.text
  | c :: s =>
    if c = 43 ∧ spaceAsPlus then decodeLoop (copy.change [c] [32]) s
    else
      match s with
      | a :: b :: t =>
        if c = 37 ∧ digitVal a < 16 ∧ digitVal b < 16 then
          decodeLoop (copy.change [c, a, b] [UInt8.ofNat (digitVal a * 16 + digitVal b)]) t
        else decodeLoop (copy.keep c) (a :: b :: t)
      | s => decodeLoop (copy.keep c) s

def urlDecode (str : List UInt8) : List UInt8 := decodeLoop spaceAsPlus {} str

def escape (c : UInt8) : List UInt8 :=
  if isUnreserved c then [c]
  else if c = 32 ∧ spaceAsPlus then [43]
  else [37, hexDigit (c.toNat / 16), hexDigit (c.toNat % 16)]

theorem encodeLoop_eq (copy : Copy) (s : List UInt8) :
    encodeLoop spaceAsPlus copy s = copy.text ++ s.flatMap (escape spaceAsPlus) := by
  induction s generalizing copy with
  | nil => simp [encodeLoop]
  | cons c s ih =>
    rw [encodeLoop, flatMap_cons, escape]
    split
    · simp [ih]
    · split <;> simp [ih]

theorem digitVal_hexDigit : ∀ n < 16, digitVal (hexDigit n) = n := by decide

theorem decodeLoop_keep (hplus : c ≠ 43) (hpercent : ∀ a b t, c = 37 → s = a :: b :: t → False)
    (copy : Copy) : decodeLoop spaceAsPlus copy (c :: s) =
      decodeLoop spaceAsPlus (copy.keep c) s := by
  match s with
  | [] | [_] => simp [decodeLoop, hplus]
  | a :: b :: t =>
    have hc : c ≠ 37 := fun hc => hpercent a b t hc rfl
    simp [decodeLoop, hplus, hc]

theorem decodeLoop_plus (copy : Copy) (s) :
    decodeLoop true copy (43 :: s) = decodeLoop true (copy.change [43] [32]) s := by
  match s with
  | [] | [_] | _ :: _ :: _ => simp [decodeLoop]

theorem decodeLoop_escape (copy : Copy) (c s) :
    ∃ next : Copy, next.text = copy.text ++ [c] ∧
      decodeLoop spaceAsPlus copy (escape spaceAsPlus c ++ s) = decodeLoop spaceAsPlus next s := by
  unfold escape
  split
  · next hc =>
    have hplus : c ≠ 43 := by rintro rfl; exact absurd hc (by decide)
    have hpercent : c ≠ 37 := by rintro rfl; exact absurd hc (by decide)
    exact ⟨copy.keep c, copy.text_keep c,
      decodeLoop_keep _ hplus (fun _ _ _ hc _ => hpercent hc) copy⟩
  · split
    · next hspace =>
      obtain ⟨rfl, rfl⟩ := hspace
      exact ⟨copy.change [43] [32], rfl, decodeLoop_plus copy s⟩
    · have hhigh := digitVal_hexDigit (c.toNat / 16) (by have := c.toNat_lt; omega)
      have hlow := digitVal_hexDigit (c.toNat % 16) (Nat.mod_lt _ (by decide))
      refine ⟨copy.change [37, hexDigit (c.toNat / 16), hexDigit (c.toNat % 16)] [c], rfl, ?_⟩
      simp [decodeLoop, hhigh, hlow, Nat.mod_lt, Nat.div_add_mod']
      have := c.toNat_lt
      omega

theorem decodeLoop_flatMap (copy : Copy) (s : List UInt8) :
    decodeLoop spaceAsPlus copy (s.flatMap (escape spaceAsPlus)) = copy.text ++ s := by
  induction s generalizing copy with
  | nil => simp [decodeLoop]
  | cons c s ih =>
    obtain ⟨next, htext, hnext⟩ :=
      decodeLoop_escape spaceAsPlus copy c (s.flatMap (escape spaceAsPlus))
    rw [flatMap_cons, hnext, ih, htext, append_assoc, singleton_append]

theorem url_roundtrip (str : List UInt8) :
    urlDecode spaceAsPlus (urlEncode spaceAsPlus str) = str := by
  rw [urlEncode, encodeLoop_eq, urlDecode]
  exact decodeLoop_flatMap spaceAsPlus {} str

theorem decodeLoop_true (copy : Copy) (s) :
    decodeLoop true copy s = copy.text ++ Http.urlDecode s := by
  fun_induction Http.urlDecode s generalizing copy with
  | case1 => simp [decodeLoop]
  | case2 s ih => simp [decodeLoop_plus, ih]
  | case3 a b s hdigits ih => simp [decodeLoop, hdigits, ih]
  | case4 a b s hdigits ih => simp [decodeLoop, hdigits, ih]
  | case5 c s hplus hpercent ih => simp [decodeLoop_keep _ hplus hpercent, ih]

/-- The copy that starts at the first change is the decoding that the parameters are read with. -/
theorem urlDecode_eq (s : List UInt8) : urlDecode true s = Http.urlDecode s := decodeLoop_true {} s

/-! ## `Trim` -/

section Trim
variable (delimit : List Char)

def findFirstNotOf (str : List Char) : Option Nat :=
  let i := str.findIdx (!delimit.contains ·)
  if i = str.length then none else some i

def findLastNotOf (str : List Char) : Option Nat :=
  let i := str.reverse.findIdx (!delimit.contains ·)
  if i = str.length then none else some (str.length - 1 - i)

def trim (str : List Char) : List Char :=
  match findFirstNotOf delimit str, findLastNotOf delimit str with
  | some first, some last => (str.drop first).take (last - first + 1)
  | _, _ => []

def trimLeft (str : List Char) : List Char :=
  match findFirstNotOf delimit str with
  | some first => str.drop first
  | none => []

def trimRight (str : List Char) : List Char :=
  match findLastNotOf delimit str with
  | some last => str.take last
  | none => []

end Trim

theorem trimLeft_eq (d str) : trimLeft d str = str.dropWhile d.contains := by
  rw [dropWhile_eq_drop_findIdx_not, trimLeft, findFirstNotOf]
  grind

theorem rdropWhile_eq_take (p : Char → Bool) (l : List Char) :
    l.rdropWhile p = l.take (l.length - l.reverse.findIdx (!p ·)) := by
  rw [rdropWhile, dropWhile_eq_drop_findIdx_not, reverse_drop, reverse_reverse, length_reverse]

theorem trimRight_eq (d str) : trimRight d str = (str.rdropWhile d.contains).dropLast := by
  rw [rdropWhile_eq_take, dropLast_eq_take, take_take, length_take, trimRight, findLastNotOf]
  generalize str.reverse.findIdx (!d.contains ·) = i
  by_cases hi : i = str.length
  · simp [hi]
  · simp only [if_neg hi]
    congr 1
    omega

variable {str : List Char}

theorem findIdx_add_lt {p : Char → Bool} (h : str.findIdx p < str.length) :
    str.findIdx p + str.reverse.findIdx p < str.length := by
  by_contra hge
  have hlt : str.length - 1 - str.findIdx p < str.reverse.findIdx p := by omega
  have hnot := not_of_lt_findIdx hlt
  rw [getElem_reverse] at hnot
  have hback : str.length - 1 - (str.length - 1 - str.findIdx p) = str.findIdx p := by omega
  simp only [hback, findIdx_getElem] at hnot
  cases hnot

theorem trim_eq (d str) : trim d str = (str.dropWhile d.contains).rdropWhile d.contains := by
  rw [rdropWhile_eq_take, dropWhile_eq_drop_findIdx_not, reverse_drop, findIdx_take, length_drop,
    trim, findFirstNotOf, findLastNotOf]
  have hsum := @findIdx_add_lt str (!d.contains ·)
  have hle := @findIdx_le_length _ (!d.contains ·) str
  generalize str.findIdx (!d.contains ·) = i at *
  generalize str.reverse.findIdx (!d.contains ·) = j at *
  by_cases hi : i = str.length
  · simp [hi]
  · have hj : j ≠ str.length := by omega
    simp only [if_neg hi, if_neg hj]
    congr 1
    omega

theorem count_dropWhile (p : Char → Bool) (str : List Char) :
    (str.dropWhile p).countP (!p ·) = str.countP (!p ·) := by
  induction str with
  | nil => rfl
  | cons c str ih =>
    rw [dropWhile_cons]
    split
    · next hc => rw [ih, countP_cons_of_neg (by simp [hc])]
    · rfl

theorem count_rdropWhile (p : Char → Bool) (str : List Char) :
    (str.rdropWhile p).countP (!p ·) = str.countP (!p ·) := by
  rw [rdropWhile, countP_reverse, count_dropWhile, countP_reverse]

theorem count_trimRight (d str) :
    (trimRight d str).countP (!d.contains ·) = str.countP (!d.contains ·) - 1 := by
  rw [trimRight_eq, ← count_rdropWhile _ str]
  rcases eq_nil_or_concat (str.rdropWhile d.contains) with hnil | ⟨l, c, hl⟩
  · rw [hnil]
    rfl
  · have hlast := rdropWhile_last_not d.contains str
    simp only [hl] at hlast ⊢
    simp_all

theorem all_of_count {d : List Char}
    (h : str.countP (!d.contains ·) = str.countP (!d.contains ·) - 1) : ∀ c ∈ str, c ∈ d := by
  have hzero : str.countP (!d.contains ·) = 0 := by omega
  simpa [countP_eq_zero] using hzero

/-- The three agree only on delimiters, and `trimRight` is the one that differs. -/
theorem trims_agree_iff (d str : List Char) :
    (trim d str = trimLeft d (trimRight d str) ↔ ∀ c ∈ str, c ∈ d) ∧
    (trim d str = trimRight d (trimLeft d str) ↔ ∀ c ∈ str, c ∈ d) ∧
    trim d (trim d str) = trim d str ∧ trimLeft d (trimLeft d str) = trimLeft d str ∧
    ((∀ c ∈ str, c ∈ d) → trimRight d (trimRight d str) = trimRight d str) := by
  have hnil : (∀ c ∈ str, c ∈ d) → str.dropWhile d.contains = [] ∧ str.rdropWhile d.contains = [] :=
    fun h => by simpa using h
  refine ⟨⟨fun h => all_of_count ?_, fun h => ?_⟩, ⟨fun h => all_of_count ?_, fun h => ?_⟩,
    ?_, ?_, fun h => ?_⟩
  · have hc := congrArg (countP (!d.contains ·)) h
    rwa [trim_eq, count_rdropWhile, count_dropWhile, trimLeft_eq, count_dropWhile,
      count_trimRight] at hc
  · rw [trim_eq, trimLeft_eq, trimRight_eq, (hnil h).1, (hnil h).2]
    rfl
  · have hc := congrArg (countP (!d.contains ·)) h
    rwa [trim_eq, count_rdropWhile, count_dropWhile, count_trimRight, trimLeft_eq,
      count_dropWhile] at hc
  · rw [trim_eq, trimLeft_eq, trimRight_eq, (hnil h).1]
    rfl
  · have hfirst := fun hl => dropWhile_get_zero_not d.contains str hl
    have hkept : (trim d str).dropWhile d.contains = trim d str := by
      rw [trim_eq, dropWhile_eq_self_iff]
      intro hl
      have hpre := rdropWhile_prefix d.contains (str.dropWhile d.contains)
      rw [hpre.getElem hl]
      exact hfirst _
    rw [trim_eq d (trim d str), hkept, trim_eq, rdropWhile_idempotent]
  · rw [trimLeft_eq, trimLeft_eq, dropWhile_idempotent]
  · rw [trimRight_eq d str, (hnil h).2]
    rfl

/-- `substr(0, end)` ends before the last letter. -/
theorem trimRight_takes_letter : trim [' '] ['a'] = ['a'] ∧ trimRight [' '] ['a'] = [] := by
  decide

end Helens.StringUtil

/-! ## `JsonUtil::Escape` -/

namespace Helens.JsonUtil
open List

def charSize (c : UInt8) : Nat := if c ∈ [12, 9, 13, 10, 8, 34, 92] then 2 else 1

def escapeOf (c : UInt8) : List UInt8 :=
  if c = 12 then [92, 102]
  else if c = 9 then [92, 116]
  else if c = 13 then [92, 114]
  else if c = 10 then [92, 110]
  else if c = 8 then [92, 98]
  else if c = 34 then [92, 34]
  else if c = 92 then [92, 92]
  else [c]

/-- The text is appended behind `size` zeros. -/
def escape (v : List UInt8) : List UInt8 :=
  let size := (v.map charSize).sum
  if size = v.length then v else v.foldl (fun rt c => rt ++ escapeOf c) (replicate size 0)

def unescape : List UInt8 → List UInt8
  | 92 :: c :: rest =>
    (if c = 102 then 12 else if c = 116 then 9 else if c = 114 then 13 else if c = 110 then 10
      else if c = 98 then 8 else c) :: unescape rest
  | c :: rest => c :: unescape rest
  | [] => []

theorem length_escapeOf (c) : (escapeOf c).length = charSize c := by
  unfold escapeOf charSize
  grind

theorem escapeOf_eq (h : charSize c = 1) : escapeOf c = [c] := by
  unfold charSize at h
  unfold escapeOf
  grind

theorem unescape_append (c rest) : unescape (escapeOf c ++ rest) = c :: unescape rest := by
  unfold escapeOf
  split_ifs <;> simp_all [unescape]

theorem unescape_escapes (v) : unescape (v.flatMap escapeOf) = v := by
  induction v with
  | nil => rfl
  | cons c v ih => rw [flatMap_cons, unescape_append, ih]

theorem sum_charSize (v : List UInt8) : v.length ≤ (v.map charSize).sum ∧
    ((v.map charSize).sum = v.length ↔ ∀ c ∈ v, charSize c = 1) := by
  induction v with
  | nil => simp
  | cons c v ih =>
    have hc : charSize c = 1 ∨ charSize c = 2 := by
      unfold charSize
      grind
    rw [forall_mem_cons, ← ih.2, map_cons, sum_cons, length_cons]
    omega

/-- Both passes agree, but `escape` is the escapes only where there is none. -/
theorem escape_iff (v : List UInt8) :
    (escape v = v.flatMap escapeOf ↔ ∀ c ∈ v, charSize c = 1) ∧
      (v.map charSize).sum = (v.flatMap escapeOf).length ∧ unescape (v.flatMap escapeOf) = v := by
  have hsize : (v.map charSize).sum = (v.flatMap escapeOf).length := by
    simp [length_flatMap, length_escapeOf]
  obtain ⟨hle, hiff⟩ := sum_charSize v
  refine ⟨?_, hsize, unescape_escapes v⟩
  rw [escape]
  split
  · next heq =>
    have hall := hiff.mp heq
    have hsame : v.flatMap escapeOf = v :=
      (flatMap_congr fun c hc => escapeOf_eq (hall c hc)).trans (flatMap_singleton' v)
    exact iff_of_true hsame.symm hall
  · next hne =>
    rw [foldl_append_eq_append, ← flatMap_def, append_left_eq_self, replicate_eq_nil_iff, ← hiff]
    omega

theorem escape_newline : escape [10] = [0, 0, 92, 110] := by decide

end Helens.JsonUtil

/-! ## `YamlToJson` and `JsonToYaml` -/

namespace Helens.Config
open List

/-- `push_back`, or `append` to a `Json::Value`: a null becomes a sequence. -/
def push : Yaml → Yaml → Yaml
  | .null, v => .sequence [v]
  | .sequence vs, v => .sequence (vs ++ [v])
  | n, _ => n

def setKey (k : Str) (v : Yaml) : List (Str × Yaml) → List (Str × Yaml)
  | [] => [(k, v)]
  | e :: es => if e.1 = k then (k, v) :: es else e :: setKey k v es

/-- `n[k] = v`: a null becomes a map. -/
def put : Yaml → Str × Yaml → Yaml
  | .null, e => .map [e]
  | .map es, e => .map (setKey e.1 e.2 es)
  | n, _ => n

section Rebuild

variable (leaf : Yaml → Yaml)

/- The recursion that both functions have: a new node is null, and gets one child after another. -/
mutual

def rebuild : Yaml → Yaml
  | .sequence ns => pushAll .null ns
  | .map es => putAll .null es
  | n => leaf n

def pushAll (node : Yaml) : List Yaml → Yaml
  | [] => node
  | n :: ns => pushAll (push node (rebuild n)) ns

def putAll (node : Yaml) : List (Str × Yaml) → Yaml
  | [] => node
  | e :: es => putAll (put node (e.1, rebuild e.2)) es

end

end Rebuild

/-- `YamlToJson`; a `Json::Value` of strings, arrays and objects is a tree of the same kinds. -/
def yamlToJson : Yaml → Yaml := rebuild id

/-- `JsonToYaml`: what is no array and no object becomes its `asString()`. -/
def jsonToYaml : Yaml → Yaml := rebuild fun
  | .scalar t => .scalar t
  | _ => .scalar []

/-- Trees of scalars, sequences and maps with distinct keys; whether sequences and maps may be
empty is a parameter. -/
inductive Distinct (empties : Prop) : Yaml → Prop
  | scalar (t : Str) : Distinct empties (.scalar t)
  | sequence {ns} (hne : ns = [] → empties) (h : ∀ n ∈ ns, Distinct empties n) :
    Distinct empties (.sequence ns)
  | map {es} (hne : es = [] → empties) (hkeys : (es.map Prod.fst).Nodup)
    (h : ∀ e ∈ es, Distinct empties e.2) : Distinct empties (.map es)

variable {leaf : Yaml → Yaml}

theorem setKey_of_notMem {es : List (Str × Yaml)} (h : k ∉ es.map Prod.fst) (v) :
    setKey k v es = es ++ [(k, v)] := by
  induction es with
  | nil => rfl
  | cons e es ih =>
    simp only [map_cons, mem_cons, not_or] at h
    rw [setKey, if_neg (Ne.symm h.1), ih h.2, cons_append]

theorem pushAll_sequence (ns vs) :
    pushAll leaf (.sequence vs) ns = .sequence (vs ++ ns.map (rebuild leaf)) := by
  induction ns generalizing vs with
  | nil => simp [pushAll]
  | cons n ns ih => rw [pushAll, push, ih, append_assoc, singleton_append, map_cons]

theorem putAll_map {es vs : List (Str × Yaml)} (hkeys : ((vs ++ es).map Prod.fst).Nodup) :
    putAll leaf (.map vs) es = .map (vs ++ es.map fun e => (e.1, rebuild leaf e.2)) := by
  induction es generalizing vs with
  | nil => simp [putAll]
  | cons e es ih =>
    have hnew : e.1 ∉ vs.map Prod.fst := by
      rw [map_append, map_cons, nodup_append_comm, cons_append, nodup_cons] at hkeys
      exact fun hmem => hkeys.1 (mem_append_right _ hmem)
    rw [putAll, put, setKey_of_notMem hnew, ih (by simpa using hkeys)]
    simp

theorem rebuild_sequence (h : ns ≠ []) :
    rebuild leaf (.sequence ns) = .sequence (ns.map (rebuild leaf)) := by
  obtain ⟨n, ns, rfl⟩ := exists_cons_of_ne_nil h
  rw [rebuild, pushAll, push, pushAll_sequence, singleton_append, map_cons]

theorem rebuild_map (h : es ≠ []) (hkeys : (es.map Prod.fst).Nodup) :
    rebuild leaf (.map es) = .map (es.map fun e => (e.1, rebuild leaf e.2)) := by
  obtain ⟨e, es, rfl⟩ := exists_cons_of_ne_nil h
  rw [rebuild, putAll, put]
  exact @putAll_map leaf es [(e.1, rebuild leaf e.2)] hkeys

/-- A tree comes back exactly if no sequence and no map of it is empty. -/
theorem yaml_json_roundtrip (y : Yaml) (h : Distinct True y) :
    Distinct False y ↔ jsonToYaml (yamlToJson y) = y := by
  unfold yamlToJson jsonToYaml
  induction h with
  | scalar t => exact iff_of_true (.scalar t) rfl
  | @sequence ns _ _ ih =>
    by_cases hne : ns = []
    · subst hne
      exact iff_of_false (fun | .sequence hempty _ => hempty rfl) (by simp [rebuild, pushAll])
    · rw [rebuild_sequence hne, rebuild_sequence (by simpa using hne), map_map,
        Yaml.sequence.injEq, map_eq_self]
      exact ⟨fun | .sequence _ hns => fun n hn => (ih n hn).mp (hns n hn),
        fun hns => .sequence hne fun n hn => (ih n hn).mpr (hns n hn)⟩
  | @map es _ hkeys _ ih =>
    by_cases hne : es = []
    · subst hne
      exact iff_of_false (fun | .map hempty _ _ => hempty rfl) (by simp [rebuild, putAll])
    · rw [rebuild_map hne hkeys, rebuild_map (by simpa using hne) (by rwa [map_map]),
        map_map, Yaml.map.injEq, map_eq_self]
      exact ⟨fun | .map _ _ hes => fun e he => Prod.ext rfl ((ih e he).mp (hes e he)),
        fun hes => .map hne hkeys fun e he => (ih e he).mpr (congrArg Prod.snd (hes e he))⟩

theorem yaml_json_roundtrip_nested :
    jsonToYaml (yamlToJson (.sequence [.scalar ['1'], .map [(['b'], .scalar [])]])) =
      .sequence [.scalar ['1'], .map [(['b'], .scalar [])]] := by
  have hall : ∀ p, Distinct p (.sequence [.scalar ['1'], .map [(['b'], .scalar [])]]) := fun p =>
    .sequence nofun (forall_mem_cons.mpr ⟨.scalar _, forall_mem_singleton.mpr (.map nofun
      (by decide) (forall_mem_singleton.mpr (.scalar _)))⟩)
  exact (yaml_json_roundtrip _ (hall True)).mp (hall False)

/-- An empty sequence or map comes back as an empty text. -/
theorem empty_becomes_text :
    jsonToYaml (yamlToJson (.sequence [])) = .scalar [] ∧
      jsonToYaml (yamlToJson (.map [])) = .scalar [] :=
  ⟨rfl, rfl⟩

end Helens.Config

/-! ## `FSUtil::Rm` -/

namespace Helens.FSUtil
open Config List

inductive Kind
  | regular
  | symlink
  | fifo
  | socket
  | charDevice
  | blockDevice

def Kind.mode : Kind → Nat
  | .regular => 0x8000
  | .symlink => 0xA000
  | .fifo => 0x1000
  | .socket => 0xC000
  | .charDevice => 0x2000
  | .blockDevice => 0x6000

/-- Whether the system lets a node be removed, and a directory be read, is part of the tree. -/
inductive Tree
  | node (kind : Kind) (removable : Bool)
  | dir (readable removable : Bool) (children : List (Str × Tree))

/-- The return value, the paths that were removed, and whether the node itself is gone. -/
structure Outcome where
  ret : Bool
  removed : List Str
  gone : Bool

def child (path name : Str) : Str := path ++ '/' :: name

mutual

/-- `Rm` of a path that is there. `opendir` fails for what is no directory. -/
def rm (path : Str) : Tree → Outcome
  | .node kind removable =>
    if kind.mode &&& 0x4000 ≠ 0 then ⟨false, [], false⟩
    else if removable then ⟨true, [path], true⟩
    else ⟨false, [], false⟩
  | .dir readable removable children =>
    if !readable then ⟨false, [], false⟩
    else
      let o := rmAll path true children
      if removable && o.gone then ⟨o.ret, o.removed ++ [path], true⟩ else ⟨false, o.removed, false⟩

/-- The loop over the entries, which keeps the last return value. -/
def rmAll (path : Str) (ret : Bool) : List (Str × Tree) → Outcome
  | [] => ⟨ret, [], true⟩
  | e :: es =>
    let o := rm (child path e.1) e.2
    let rest := rmAll path o.ret es
    ⟨rest.ret, o.removed ++ rest.removed, o.gone && rest.gone⟩

end

mutual

/-- The paths of a tree, those below a directory before it. -/
def paths (path : Str) : Tree → List Str
  | .node _ _ => [path]
  | .dir _ _ children => pathsAll path children ++ [path]

def pathsAll (path : Str) : List (Str × Tree) → List Str
  | [] => []
  | e :: es => paths (child path e.1) e.2 ++ pathsAll path es

end

/-- All removals are permitted, and there is no socket and no block device. -/
inductive Permitted : Tree → Prop
  | node {kind} (h : kind.mode &&& 0x4000 = 0) : Permitted (.node kind true)
  | dir {children} (h : ∀ e ∈ children, Permitted e.2) : Permitted (.dir true true children)

/-- Nothing else than `all` is removed, and all of it if the node is gone, which shows `p`. -/
structure Outcome.Sound (o : Outcome) (all : List Str) (p : Prop) : Prop where
  inside : o.removed <+ all
  complete : o.gone = true → o.removed = all ∧ p

theorem Outcome.Sound.none {all : List Str} : (⟨false, [], false⟩ : Outcome).Sound all p :=
  ⟨nil_sublist _, Bool.noConfusion⟩

mutual

theorem rm_sound (path) : ∀ t,
    (rm path t).Sound (paths path t) (Permitted t) ∧ (rm path t).ret = (rm path t).gone
  | .node kind removable => by
    rw [rm, paths]
    split
    · exact ⟨.none, rfl⟩
    · next hkind =>
      split
      · next hremovable =>
        exact ⟨⟨.refl _, fun _ => ⟨rfl, hremovable ▸ .node (not_not.mp hkind)⟩⟩, rfl⟩
      · exact ⟨.none, rfl⟩
  | .dir readable removable children => by
    obtain ⟨hsound, hret⟩ := rmAll_sound path true children
    rw [rm, paths]
    split
    · exact ⟨.none, rfl⟩
    · next hreadable =>
      dsimp only
      split
      · next hrmdir =>
        obtain ⟨hremovable, hgone⟩ := Bool.and_eq_true_iff.mp hrmdir
        obtain ⟨hremoved, hperm⟩ := hsound.complete hgone
        obtain rfl : readable = true := by simpa using hreadable
        obtain rfl := hremovable
        exact ⟨⟨hsound.inside.append_right _, fun _ => ⟨by rw [hremoved], .dir hperm⟩⟩,
          hret hgone rfl⟩
      · exact ⟨⟨hsound.inside.trans (sublist_append_left ..), fun h => by cases h⟩, rfl⟩

theorem rmAll_sound (path ret) : ∀ es,
    (rmAll path ret es).Sound (pathsAll path es) (∀ e ∈ es, Permitted e.2) ∧
      ((rmAll path ret es).gone = true → ret = true → (rmAll path ret es).ret = true)
  | [] => ⟨⟨.refl _, fun _ => ⟨rfl, nofun⟩⟩, fun _ h => h⟩
  | e :: es => by
    obtain ⟨hfirst, hret⟩ := rm_sound (child path e.1) e.2
    obtain ⟨hrest, hlast⟩ := rmAll_sound path (rm (child path e.1) e.2).ret es
    rw [rmAll, pathsAll]
    refine ⟨⟨hfirst.inside.append hrest.inside, fun hgone => ?_⟩, fun hgone _ => ?_⟩
    · rw [Bool.and_eq_true_iff] at hgone
      obtain ⟨hremoved, hperm⟩ := hfirst.complete hgone.1
      obtain ⟨hremoved', hperms⟩ := hrest.complete hgone.2
      exact ⟨by simp only [hremoved, hremoved'], forall_mem_cons.mpr ⟨hperm, hperms⟩⟩
    · rw [Bool.and_eq_true_iff] at hgone
      exact hlast hgone.2 (hret.trans hgone.1)

end

end Helens.FSUtil
