import Mathlib.Data.List.Nodup

/-! `Config::LoadFromYaml` of `config.cc`: the tree is flattened to dotted names, which are
filtered, folded to lower case and looked up. `fromString` and the text of a node are parameters. -/

namespace Helens.Config

open List

abbrev Str := List Char

/-- A YAML tree. The key of an entry is what `Scalar()` gives for it, the empty string for a
key that is no scalar. -/
inductive Yaml
  | null
  | scalar (text : Str)
  | sequence (nodes : List Yaml)
  | map (entries : List (Str × Yaml))

theorem map_eq_self {f : α → α} {l : List α} : l.map f = l ↔ ∀ a ∈ l, f a = a := by
  induction l <;> simp_all

/-! ## `config.h` and `config.cc` -/

def alphabet : Str := "abcdefghikjlmnopqrstuvwxyz._012345678".toList

def valid (name : Str) : Bool := name.all (· ∈ alphabet)

def isMap : Yaml → Bool
  | .map _ => true
  | _ => false

def join (pre key : Str) : Str := if pre.isEmpty then key else pre ++ '.' :: key

mutual

def listAllMember (pre : Str) (node : Yaml) : List (Str × Yaml) :=
  if !valid pre then []
  else (pre, node) :: match node with
    | .map entries => listEntries pre entries
    | _ => []

def listEntries (pre : Str) : List (Str × Yaml) → List (Str × Yaml)
  | [] => []
  | (key, node) :: entries => listAllMember (join pre key) node ++ listEntries pre entries

end

variable {V : Type}

abbrev Registry (V : Type) := Str → Option V

/-- `Config::Lookup(name, default_value)`: `none` where it throws. -/
def lookup (name : Str) (default : V) (vars : Registry V) : Option (V × Registry V) :=
  match vars name with
  | some var => some (var, vars)
  | none =>
    if !valid name then none
    else some (default, Function.update vars name (some default))

def text (emit : Yaml → Str) : Yaml → Str
  | .scalar text => text
  | node => emit node

def load (emit : Yaml → Str) (fromString : Str → V → V) (vars : Registry V)
    (member : Str × Yaml) : Registry V :=
  if member.1.isEmpty then vars
  else
    let key := member.1.map Char.toLower
    match vars key with
    | none => vars
    | some var => Function.update vars key (some (fromString (text emit member.2) var))

def loadFromYaml (emit : Yaml → Str) (fromString : Str → V → V) (root : Yaml)
    (vars : Registry V) : Registry V :=
  (listAllMember [] root).foldl (load emit fromString) vars

/-! ## The nodes of a tree by their paths -/

mutual

/-- All nodes, with the keys that lead to them, in the order of the document. -/
def nodes (path : List Str) (node : Yaml) : List (List Str × Yaml) :=
  (path, node) :: match node with
    | .map entries => nodesOf path entries
    | _ => []

def nodesOf (path : List Str) : List (Str × Yaml) → List (List Str × Yaml)
  | [] => []
  | (key, node) :: entries => nodes (path ++ [key]) node ++ nodesOf path entries

end

def dotted (path : List Str) : Str := List.intercalate ['.'] path

def named (name : Str) (member : List Str × Yaml) : Bool :=
  !member.1.isEmpty && (dotted member.1).map Char.toLower == name

def nodesNamed (name : Str) (root : Yaml) : List Yaml :=
  ((nodes [] root).filter (named name)).map Prod.snd

/-! ## The flattening -/

def nameOf (path : List Str) : Str := path.foldl join []

theorem nameOf_concat (path key) : nameOf (path ++ [key]) = join (nameOf path) key := by
  rw [nameOf, foldl_append]
  rfl

theorem prefix_join (pre key) : pre <+: join pre key := by
  unfold join
  split
  · next hempty =>
    rw [isEmpty_iff.mp hempty]
    exact nil_prefix
  · exact prefix_append _ _

theorem nodes_map (path entries) :
    nodes path (.map entries) = (path, .map entries) :: nodesOf path entries := by
  rw [nodes]

theorem nodes_leaf (hleaf : isMap node = false) (path) : nodes path node = [(path, node)] := by
  cases node with
  | map entries => cases hleaf
  | null => simp [nodes]
  | scalar text => simp [nodes]
  | sequence items => simp [nodes]

mutual

theorem prefix_of_mem_nodes (path) : ∀ (node : Yaml) (member : List Str × Yaml),
    member ∈ nodes path node → nameOf path <+: nameOf member.1
  | .map entries, member, h => by
    rw [nodes_map, mem_cons] at h
    rcases h with rfl | h
    · exact prefix_rfl
    · exact prefix_of_mem_nodesOf path entries member h
  | .null, member, h => by
    rw [nodes_leaf rfl, mem_singleton] at h
    exact h ▸ prefix_rfl
  | .scalar _, member, h => by
    rw [nodes_leaf rfl, mem_singleton] at h
    exact h ▸ prefix_rfl
  | .sequence _, member, h => by
    rw [nodes_leaf rfl, mem_singleton] at h
    exact h ▸ prefix_rfl

theorem prefix_of_mem_nodesOf (path) :
    ∀ (entries : List (Str × Yaml)) (member : List Str × Yaml),
      member ∈ nodesOf path entries → nameOf path <+: nameOf member.1
  | [], _, h => absurd h not_mem_nil
  | (key, node) :: entries, member, h => by
    rw [nodesOf, mem_append] at h
    rcases h with h | h
    · have hjoin := prefix_join (nameOf path) key
      rw [← nameOf_concat] at hjoin
      exact hjoin.trans (prefix_of_mem_nodes (path ++ [key]) node member h)
    · exact prefix_of_mem_nodesOf path entries member h

end

theorem valid_mono (h : a <+: b) (hb : valid b = true) : valid a = true := by
  rw [valid, all_eq_true] at hb ⊢
  exact fun c hc => hb c (h.subset hc)

def validNodes (members : List (List Str × Yaml)) : List (Str × Yaml) :=
  (members.filter fun member => valid (nameOf member.1)).map fun member =>
    (nameOf member.1, member.2)

theorem validNodes_append (l l') : validNodes (l ++ l') = validNodes l ++ validNodes l' := by
  rw [validNodes, filter_append, map_append, validNodes, validNodes]

theorem validNodes_cons (hvalid : valid (nameOf path) = true) (node members) :
    validNodes ((path, node) :: members) = (nameOf path, node) :: validNodes members := by
  simp [validNodes, hvalid]

theorem listAllMember_map (hvalid : valid pre = true) (entries) :
    listAllMember pre (.map entries) = (pre, .map entries) :: listEntries pre entries := by
  rw [listAllMember, hvalid]
  rfl

theorem listAllMember_leaf (hvalid : valid pre = true)
    (hleaf : isMap node = false) : listAllMember pre node = [(pre, node)] := by
  cases node with
  | map entries => cases hleaf
  | null => simp [listAllMember, hvalid]
  | scalar text => simp [listAllMember, hvalid]
  | sequence items => simp [listAllMember, hvalid]

theorem listAllMember_dropped (hvalid : valid (nameOf path) ≠ true)
    (node) : listAllMember (nameOf path) node = validNodes (nodes path node) := by
  have hnone : validNodes (nodes path node) = [] := by
    rw [validNodes, map_eq_nil_iff, filter_eq_nil_iff]
    intro member hmember hall
    exact hvalid (valid_mono (prefix_of_mem_nodes path node member hmember) hall)
  rw [hnone]
  cases node <;> simp [listAllMember, hvalid]

mutual

theorem listAllMember_eq (path) : ∀ node : Yaml,
    listAllMember (nameOf path) node = validNodes (nodes path node) := by
  intro node
  by_cases hvalid : valid (nameOf path) = true
  · have hleaf : isMap node = false →
        listAllMember (nameOf path) node = validNodes (nodes path node) := by
      intro hleaf
      rw [listAllMember_leaf hvalid hleaf, nodes_leaf hleaf, validNodes_cons hvalid]
      rfl
    cases node with
    | map entries =>
      rw [listAllMember_map hvalid, nodes_map, validNodes_cons hvalid, listEntries_eq path entries]
    | null => exact hleaf rfl
    | scalar text => exact hleaf rfl
    | sequence items => exact hleaf rfl
  · exact listAllMember_dropped hvalid node

theorem listEntries_eq (path) : ∀ entries : List (Str × Yaml),
    listEntries (nameOf path) entries = validNodes (nodesOf path entries)
  | [] => rfl
  | (key, node) :: entries => by
    rw [listEntries, nodesOf, validNodes_append, ← nameOf_concat, listAllMember_eq,
      listEntries_eq path entries]

end

/-! ## Names and dotted paths -/

theorem foldl_join (hkey : key ≠ []) (path : List Str) :
    path.foldl join key = key ++ path.flatMap ('.' :: ·) := by
  induction path generalizing key with
  | nil => simp
  | cons next path ih =>
    have hjoin : join key next = key ++ '.' :: next := by simp [join, hkey]
    rw [foldl_cons, hjoin, ih (by simp), flatMap_cons, append_assoc]

theorem dotted_cons (key) (path : List Str) :
    dotted (key :: path) = key ++ path.flatMap ('.' :: ·) := by
  induction path generalizing key with
  | nil => simp [dotted]
  | cons next path ih =>
    have hnext : dotted (key :: next :: path) = key ++ '.' :: dotted (next :: path) := by
      simp [dotted, intercalate]
    rw [hnext, ih, flatMap_cons, cons_append]

/-- An empty key is left out as long as nothing stands before it. -/
def spelled (path : List Str) : List Str := path.dropWhile List.isEmpty

theorem nameOf_eq (path) : nameOf path = dotted (spelled path) := by
  induction path with
  | nil => rfl
  | cons key path ih =>
    cases key with
    | nil => exact ih
    | cons c key => exact (foldl_join (cons_ne_nil c key) path).trans (dotted_cons _ path).symm

theorem dotted_isEmpty (path) : (dotted (spelled path)).isEmpty = (spelled path).isEmpty := by
  induction path with
  | nil => rfl
  | cons key path ih =>
    cases key with
    | nil => exact ih
    | cons c key => exact congrArg isEmpty (dotted_cons _ path)

theorem foldl_load (emit : Yaml → Str) (fromString : Str → V → V) (name)
    (members : List (Str × Yaml)) (vars) :
    members.foldl (load emit fromString) vars name = (vars name).map fun var =>
      (members.filter fun member =>
        !member.1.isEmpty && member.1.map Char.toLower == name).foldl
          (fun var member => fromString (text emit member.2) var) var := by
  induction members generalizing vars with
  | nil => simp
  | cons member members ih =>
    rw [foldl_cons, ih, filter_cons]
    unfold load
    by_cases hempty : member.1.isEmpty = true
    · simp [hempty]
    · by_cases hname : member.1.map Char.toLower = name
      · subst hname
        cases hvar : vars (member.1.map Char.toLower) with
        | none => simp [hempty, hvar]
        | some var => simp [hempty, hvar]
      · cases hvar : vars (member.1.map Char.toLower) with
        | none => simp [hempty, hname, hvar]
        | some var => simp [hempty, hname, hvar, Function.update_of_ne (Ne.symm hname)]

/-- The node is listed under the name. -/
def listed (name : Str) (member : List Str × Yaml) : Bool :=
  named name (spelled member.1, member.2) && valid (dotted (spelled member.1))

def Readable (name : Str) (root : Yaml) : Prop :=
  ∀ member ∈ nodes [] root, listed name member = named name member
  deriving Decidable

theorem filter_validNodes (name members) : ((validNodes members).filter fun member =>
        !member.1.isEmpty && member.1.map Char.toLower == name) =
      (members.filter (listed name)).map fun member => (nameOf member.1, member.2) := by
  rw [validNodes, filter_map, filter_filter]
  congr 2
  funext member
  rw [Function.comp_apply, nameOf_eq, dotted_isEmpty]
  rfl

theorem loadFromYaml_eq (emit : Yaml → Str) (fromString : Str → V → V) (root vars name) :
    loadFromYaml emit fromString root vars name = (vars name).map fun var =>
      ((nodes [] root).filter (listed name)).foldl
        (fun var member => fromString (text emit member.2) var) var := by
  have hmembers : listAllMember [] root = validNodes (nodes [] root) := listAllMember_eq [] root
  rw [loadFromYaml, hmembers, foldl_load, filter_validNodes]
  simp only [foldl_map]

/-- Loading a tree updates a variable from the nodes that its name stands for, in the order of the
document, if the paths with this name are listed under it and no others are; and only then, where
the texts tell the nodes apart. -/
theorem loadFromYaml_updates (emit : Yaml → Str) (root : Yaml) (name : Str) :
    (Readable name root → ∀ (V : Type) (fromString : Str → V → V) (vars : Registry V),
      loadFromYaml emit fromString root vars name = (vars name).map fun var =>
        (nodesNamed name root).foldl (fun var node => fromString (text emit node) var) var) ∧
    (((nodes [] root).map fun member => text emit member.2).Nodup →
      loadFromYaml emit (fun text var => var ++ [text]) root (fun _ => some []) name =
        some ((nodesNamed name root).map (text emit)) → Readable name root) := by
  constructor
  · intro h V fromString vars
    rw [loadFromYaml_eq, filter_congr h, nodesNamed]
    simp only [foldl_map]
  · intro hnodup hload member hmember
    have htexts : ((nodes [] root).filter (listed name)).map (fun m => text emit m.2) =
        ((nodes [] root).filter (named name)).map fun m => text emit m.2 := by
      rw [loadFromYaml_eq] at hload
      simpa [nodesNamed, foldl_append_eq_append, ← flatMap_def, ← map_eq_flatMap,
        Function.comp_def] using hload
    have hmem : ∀ p : List Str × Yaml → Bool, p member = true ↔
        text emit member.2 ∈ ((nodes [] root).filter p).map fun m => text emit m.2 := by
      intro p
      rw [mem_map]
      constructor
      · exact fun hp => ⟨member, mem_filter.mpr ⟨hmember, hp⟩, rfl⟩
      · rintro ⟨m, hm, heq⟩
        rw [mem_filter] at hm
        exact inj_on_of_nodup_map hnodup hm.1 hmember heq ▸ hm.2
    rw [Bool.eq_iff_iff, hmem, hmem, htexts]

def tree : Yaml :=
  .map [("a".toList, .map [("b".toList, .scalar "10".toList), ("C".toList, .null)]),
    ("a.b".toList, .scalar "20".toList)]

theorem tree_readable : Readable "a.b".toList tree := by decide +kernel

theorem loadFromYaml_tree : Readable "a.b".toList tree ∧
      loadFromYaml (fun _ => []) (fun text var => var ++ [text]) tree
          (Function.update (fun _ => none) "a.b".toList (some [])) "a.b".toList =
        some ["10".toList, "20".toList] :=
  ⟨tree_readable, ((loadFromYaml_updates _ tree "a.b".toList).1 tree_readable _ _ _).trans
    (by decide +kernel)⟩

/-- A path with a capital letter is dropped before its case is folded, and an empty key at the
top is left out of the names below it. -/
theorem loadFromYaml_misses :
    let vars : Registry Str := ((lookup "a.b".toList [] (fun _ => none)).map Prod.snd).getD
      fun _ => none
    let upper := Yaml.map [("A".toList, .map [("B".toList, .scalar "10".toList)])]
    let hidden := Yaml.map [([], .map [("a.b".toList, .scalar "10".toList)])]
    ((nodesNamed "a.b".toList upper).length = 1 ∧
        loadFromYaml (fun _ => []) (fun text _ => text) upper vars "a.b".toList = some []) ∧
      (nodesNamed "a.b".toList hidden).length = 0 ∧
        loadFromYaml (fun _ => []) (fun text _ => text) hidden vars "a.b".toList =
          some "10".toList := by
  decide +kernel

end Helens.Config
