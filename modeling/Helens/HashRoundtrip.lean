import Helens.HashDecode

/-! `writeTo`, then `readFrom` into another map: the receiver has the contents of the writer,
in every run of calls on hash maps and on dictionaries. -/

namespace Helens.Ds

open Lib.Runs Lib.SortedVector Lib.Stores Lib.Words Lib.PlainData List

theorem writeVector_eq {α : Type} (pod : Pod α) {xs : List α} (h : xs.length * pod.size < 2 ^ 63) :
    writeVector pod xs = (leBytes 8 (xs.length * pod.size) ++ pod.encodeAll xs, true) := by
  have hmod : xs.length * pod.size % 2 ^ 64 = xs.length * pod.size := Nat.mod_eq_of_lt (by omega)
  rw [writeVector, hmod, if_pos h, take_of_length_le (by rw [pod.length_encodeAll])]

theorem Table.Inv.size_lt {K β : Type} [LinearOrder K] {hash : K → Nat} {t : Table K β}
    (h : t.Inv hash) : t.size < 2 ^ 64 := by
  obtain ⟨e, hle, he⟩ := h.size
  rw [he]
  exact Nat.pow_lt_pow_right (by decide) (by omega)

theorem Table.Loaded.inv {K β : Type} [LinearOrder K] {hash : K → Nat} {t u : Table K β}
    {ns : List (K × β)} (h : t.Inv hash) (hu : Table.Loaded hash t.size ns u)
    (hkeys : ns.map Prod.fst = t.nodes.map Prod.fst) : u.Inv hash ∧ u.total = t.total := by
  have hnodup : (u.nodes.map Prod.fst).Nodup := by
    rw [((hu.perm.map Prod.fst).nodup_iff), hkeys]
    exact h.nodup
  have hlayout : Layout hash t.size u.buckets := by
    apply Layout.of_sorted
    · rw [hu.rep.length, hu.size_eq]
    · exact hnodup
    · intro i b hb
      exact ⟨hu.rep.sorted b (mem_of_getElem? hb), hu.home i b hb⟩
  have htotal : u.total = t.total := by
    have hlen := congrArg length hkeys
    rw [length_map, length_map] at hlen
    rw [hu.rep.total, hu.perm.length_eq, hlen, h.total]
  rw [← hu.size_eq] at hlayout
  exact ⟨⟨hu.size_eq ▸ h.size, hu.rep.datas, hlayout, hu.rep.total⟩, htotal⟩

/-! ## `HashMap` -/

namespace HashMap

variable {K V : Type} [LinearOrder K] [Inhabited K] [Inhabited V] (hash : K → Nat)
  (sorter : Sorter (K × V) Prod.fst) (node : Pod (K × V))

omit [LinearOrder K] [Inhabited K] [Inhabited V] in
def clear (_ : Table K V) : Table K V := { size := 0, total := 0, datas := none }

def copy (t u : Table K V) : Except HashError (Table K V × Bool) := do
  let (os, written) ← writeTo node t
  let (u', done) ← readFrom hash sorter node (fun _ => true) u os
  .ok (u', written && done)

structure Same (t : Table K V) (r : Table K V × Bool) : Prop where
  done : r.2 = true
  contents : r.1.nodes.Perm t.nodes
  total : r.1.total = t.total
  size : r.1.size = t.size
  buckets : Table.Layout hash r.1.size r.1.buckets

def Cleared (t : Table K V) : Prop := t.size = 0 ∧ t.total = 0 ∧ t.buckets = []

def Valid (t : Table K V) : Prop := t.Inv hash ∨ Cleared t

variable {hash} {sorter} {node} {t u : Table K V}

omit [LinearOrder K] [Inhabited K] [Inhabited V] in
theorem Cleared.nodes (h : Cleared t) : t.nodes = [] := by
  rw [Table.nodes, h.2.2]
  rfl

omit [Inhabited K] [Inhabited V] in
theorem Cleared.locate_eq (h : Cleared t) (k) : t.locate hash k = .error .remainderByZero := by
  rw [Table.locate, if_pos h.1]

omit [Inhabited K] [Inhabited V] in
theorem Cleared.absurd_locate {P : Prop} (h : Cleared t) {r}
    (hl : t.locate hash k = .ok r) : P := by
  rw [h.locate_eq] at hl
  cases hl

omit [Inhabited K] [Inhabited V] in
theorem Cleared.rehash_eq (h : Cleared t) : t.rehash hash sorter = .ok t := by
  have hneed : t.needRehash = false := by
    rw [Table.needRehash, h.1, h.2.1]
    decide
  rw [Table.rehash, hneed]
  rfl

omit [Inhabited K] [Inhabited V] in
theorem tame_valid : Table.Tame hash sorter (· = .remainderByZero) (Valid (V := V) hash) where
  of_inv := .inl
  total h := by
    rcases h with h | h
    · exact h.total
    · rw [h.nodes, h.2.1]
      rfl
  allNodes h := by
    rcases h with h | h
    · exact h.rep.allNodes_eq
    · rw [Table.allNodes_of_size h.1, h.nodes]
  locate h k := by
    rcases h with h | h
    · exact ((Table.tame_inv sorter).locate h k).mono (fun _ => id) fun _ => False.elim
    · rw [h.locate_eq]
      rfl
  rehash h hlt := by
    rcases h with h | h
    · obtain ⟨t', ht', hinv, hperm⟩ := (Table.tame_inv sorter).rehash h hlt
      exact ⟨t', ht', .inl hinv, hperm⟩
    · exact ⟨_, h.rehash_eq, .inr h, List.Perm.refl _⟩
  add h hl hlt v := by
    rcases h with h | h
    · exact ((Table.tame_inv sorter).add h hl hlt v).imp_left .inl
    · exact h.absurd_locate hl
  write h hl hi v' := by
    rcases h with h | h
    · exact ((Table.tame_inv sorter).write h hl hi v').imp_left .inl
    · exact h.absurd_locate hl
  remove h hl hi hlt := by
    rcases h with h | h
    · exact ((Table.tame_inv sorter).remove h hl hi hlt).imp_left .inl
    · exact h.absurd_locate hl

theorem copy_inv (h : t.Inv hash) (hbytes : t.total * node.size < 2 ^ 63) :
    Post (fun r => Same hash t r ∧ Valid hash r.1) Never (copy hash sorter node t u) := by
  have hlen : t.nodes.length * node.size < 2 ^ 63 := by
    rw [← h.total]
    exact hbytes
  have hwrite : writeTo node t = .ok (leBytes 8 t.size ++
      (leBytes 8 (t.nodes.length * node.size) ++ node.encodeAll t.nodes), true) := by
    rw [writeTo, h.rep.allNodes_eq]
    dsimp only [bind, Except.bind]
    rw [writeVector_eq node hlen]
  have himage := node.image_encodeAll t.nodes []
  rw [append_nil] at himage
  have hreadable : Readable node (fun _ => true) (leBytes 8 t.size ++
      (leBytes 8 (t.nodes.length * node.size) ++ node.encodeAll t.nodes)) t.size t.nodes :=
    ⟨⟨_, [], rfl, himage⟩, ⟨h.pos, h.size_lt⟩, hlen, fun _ => rfl, rfl, fun _ _ => rfl⟩
  apply post_bind_ok hwrite
  apply (readFrom_post hreadable).bind
  rintro ⟨u', done⟩ ⟨hloaded, rfl⟩
  obtain ⟨hinv, htotal⟩ := hloaded.inv h rfl
  exact ⟨⟨rfl, hloaded.perm, htotal, hloaded.size_eq, hinv.layout⟩, .inl hinv⟩

theorem copy_cleared (h : Cleared t) : Post (fun r => Same hash t r ∧ Valid hash r.1) Never
      (copy hash sorter node t u) := by
  have hwrite : writeTo node t = .ok (leBytes 8 0 ++ leBytes 8 0, true) := by
    rw [writeTo, Table.allNodes_of_size h.1, h.1]
    dsimp only [bind, Except.bind]
    rw [writeVector_eq node (by simp)]
    simp [Pod.encodeAll]
  have himage := node.image_encodeAll [] []
  have hread : readVector node (fun _ => true) [] (leBytes 8 0) = .ok ([], some []) := by
    apply readVector_eq_iff.mpr
    refine ⟨?_, by simp, fun _ => rfl⟩
    simpa [Pod.encodeAll] using himage
  have hempty : readFrom hash sorter node (fun _ => true) u (leBytes 8 0 ++ leBytes 8 0) =
      .ok (⟨0, 0, some []⟩, true) := by
    rw [readFrom, readWord_leBytes (by decide)]
    dsimp only
    rw [hread]
    rfl
  apply post_bind_ok hwrite
  apply post_bind_ok hempty
  have hlayout : Table.Layout hash 0 ([] : List (List (K × V))) :=
    ⟨rfl, fun i b hb => by simp at hb, fun i b hb => by simp at hb⟩
  refine ⟨⟨rfl, ?_, h.2.1.symm, h.1.symm, hlayout⟩, .inr ⟨rfl, rfl, rfl⟩⟩
  rw [h.nodes]
  exact List.Perm.refl _

theorem copy_post (h : Valid hash t) (hbytes : t.total * node.size < 2 ^ 63) :
    Post (fun r => Same hash t r ∧ Valid hash r.1) Never (copy hash sorter node t u) := by
  rcases h with h | h
  · exact copy_inv h hbytes
  · exact copy_cleared h

inductive Call (K V : Type)
  | act (a : Action K V)
  | clear (i : Nat)
  | swap (i j : Nat)
  | copy (i j : Nat)

variable (hash) (sorter) (node) in
def Call.exec : Call K V → Store (Table K V) (Answer V) →
    Except HashError (Store (Table K V) (Answer V))
  | .act a, s => HashMap.exec hash sorter a s
  | .clear i, s => s.call i fun t => .ok (HashMap.clear t, [])
  | .swap i j, s =>
    match s.objects[i]?, s.objects[j]? with
    | some t, some u => .ok { s with objects := (s.objects.set i u).set j t }
    | _, _ => .ok s
  | .copy i j, s =>
    match s.objects[i]? with
    | none => .ok s
    | some t => s.call j fun u => do
      let (u', done) ← HashMap.copy hash sorter node t u
      .ok (u', [.flag done])

variable (node) in
omit [LinearOrder K] [Inhabited K] [Inhabited V] in
def Call.Fits (s : Store (Table K V) (Answer V)) : Call K V → Prop
  | .act a => Room s a
  | .copy i _ => ∀ t ∈ s.objects[i]?, t.total * node.size < 2 ^ 63
  | _ => True

instance (s : Store (Table K V) (Answer V)) : (c : Call K V) → Decidable (c.Fits node s)
  | .act a => inferInstanceAs (Decidable (Room s a))
  | .copy i _ => inferInstanceAs (Decidable (∀ t ∈ s.objects[i]?, _))
  | .clear _ | .swap .. => inferInstanceAs (Decidable True)

variable (hash) (sorter) in
theorem Call.exec_valid (h : ∀ t ∈ s.objects, Valid hash t) (c : Call K V) (hfits : c.Fits node s) :
    Post (fun s' => ∀ t ∈ s'.objects, Valid hash t) (· = .remainderByZero)
      (c.exec hash sorter node s) := by
  cases c with
  | act a => exact exec_kept tame_valid h a hfits
  | clear i =>
    apply Store.post_call_all h
    exact fun _ _ _ => .inr ⟨rfl, rfl, rfl⟩
  | swap i j =>
    rw [Call.exec]
    split
    · next t u hi hj =>
      intro x hx
      rcases mem_or_eq_of_mem_set hx with hx | rfl
      · rcases mem_or_eq_of_mem_set hx with hx | rfl
        · exact h x hx
        · exact h _ (mem_of_getElem? hj)
      · exact h _ (mem_of_getElem? hi)
    · exact h
  | copy i j =>
    rw [Call.exec]
    split
    · exact h
    · next t hi =>
      apply Store.post_call_all h
      intro u _ _
      have hcopy : Post (fun r => Same hash t r ∧ Valid hash r.1) Never
          (HashMap.copy hash sorter node t u) :=
        copy_post (h t (mem_of_getElem? hi)) (hfits t hi)
      apply (hcopy.mono (fun _ => id) fun _ => False.elim).bind
      exact fun r hr => hr.2

end HashMap

/-! ## `Dict` -/

section
variable {K V : Type} {pool vs : List V} {n : K × Values V} {w : WireNode K}

structure Packed (pool vs : List V) (n : K × Values V) (w : WireNode K) : Prop where
  key : w.1 = n.1
  size : w.2.1.toInt = (n.2.toList pool).length
  inside : w.2.2.toNat < vs.length
  values : n.2.toList pool <+: vs.drop w.2.2.toNat

theorem Packed.append (h : Packed pool vs n w) (extra) : Packed pool (vs ++ extra) n w := by
  refine ⟨h.key, h.size, ?_, ?_⟩
  · rw [length_append]
    exact Nat.lt_add_right _ h.inside
  · rw [drop_append_of_le_length h.inside.le]
    exact h.values.trans (prefix_append _ _)

theorem Packed.holds (h : Packed pool vs n w) : Holds vs (attach true w).2 (n.2.toList pool) := by
  have hshared := Holds.shared h.inside h.values
  rw [← h.size] at hshared
  exact hshared

theorem Packed.entry_eq (h : Packed pool vs n w) : entry vs (attach true w) = entry pool n := by
  rw [entry, h.holds.toList_eq, entry, ← h.key]
  rfl

def allValues (pool : List V) (ns : List (K × Values V)) : List V :=
  ns.flatMap fun n => n.2.toList pool

structure PackedAll (pool : List V) (ns : List (K × Values V))
    (acc : List V × List (WireNode K)) : Prop where
  values : acc.1 = allValues pool ns
  nodes : List.Forall₂ (Packed pool acc.1) ns acc.2

theorem packNode_post (h : PackedAll pool pre acc) (hholds : Holds pool n.2 (n.2.toList pool))
    (hsize : 1 ≤ n.2.size ∧ n.2.size < 2 ^ 31) (hroom : acc.1.length < 2 ^ 64) :
    Post (PackedAll pool (pre ++ [n])) Never (packNode pool acc n) := by
  have hlen := hholds.size_eq
  apply post_bind_ok hholds.read_eq
  constructor
  · rw [h.values, allValues, allValues, flatMap_append]
    simp
  · apply rel_append
    · exact h.nodes.imp fun n w hw => hw.append _
    · apply List.Forall₂.cons _ List.Forall₂.nil
      constructor
      · rfl
      · dsimp only
        rw [BitVec.toInt_ofInt_eq_self (by decide) (by omega) (by omega), hlen]
      · dsimp only
        rw [BitVec.toNat_ofNat, Nat.mod_eq_of_lt hroom, length_append]
        omega
      · dsimp only
        rw [BitVec.toNat_ofNat, Nat.mod_eq_of_lt hroom, drop_left]

theorem pack_post {ns : List (K × Values V)} (hholds : ∀ n ∈ ns, Holds pool n.2 (n.2.toList pool))
    (hsizes : ∀ n ∈ ns, 1 ≤ n.2.size ∧ n.2.size < 2 ^ 31)
    (hroom : (allValues pool ns).length < 2 ^ 63) :
    Post (PackedAll pool ns) Never (ns.foldlM (packNode pool) ([], [])) := by
  apply post_foldlM (P := PackedAll pool)
  · exact ⟨rfl, List.Forall₂.nil⟩
  · intro pre n acc hpre hacc
    have hn : n ∈ ns := hpre.subset (by simp)
    obtain ⟨rest, rfl⟩ := hpre
    apply packNode_post hacc (hholds n hn) (hsizes n hn)
    rw [hacc.values]
    rw [allValues, append_assoc, flatMap_append, length_append] at hroom
    rw [allValues]
    omega

theorem Packed.of_mem
    (h : List.Forall₂ (Packed pool vs) ns ws) (hw : w ∈ ws) : ∃ n ∈ ns, Packed pool vs n w := by
  induction h with
  | nil => cases hw
  | cons hn _ ih =>
    rcases mem_cons.mp hw with rfl | hw
    · exact ⟨_, mem_cons_self, hn⟩
    · obtain ⟨n, hmem, hn⟩ := ih hw
      exact ⟨n, mem_cons_of_mem _ hmem, hn⟩

theorem map_entry_eq (h : List.Forall₂ (Packed pool vs) ns ws) :
    (ws.map (attach true)).map (entry vs) = ns.map (entry pool) := by
  induction h with
  | nil => rfl
  | cons hw _ ih =>
    rw [map_cons, map_cons, map_cons, hw.entry_eq, ih]

end

namespace Dict

variable {K V : Type} [LinearOrder K] [Inhabited K] [Inhabited V] (hash : K → Nat)
  (sorter : Sorter (K × Values V) Prod.fst) (value : Pod V) (node : Pod (WireNode K))

def copy (d e : Dict K V) : Except HashError (Dict K V × Bool) := do
  let (os, written) ← writeTo value node d
  let (e', done) ← readFrom hash sorter value node (fun _ => true) e os
  .ok (e', written && done)

def entries (d : Dict K V) : List (K × List V) := contents d.values d.table

structure Same (d : Dict K V) (r : Dict K V × Bool) : Prop where
  done : r.2 = true
  contents : r.1.entries.Perm d.entries
  total : r.1.table.total = d.table.total
  size : r.1.table.size = d.table.size
  buckets : Table.Layout hash r.1.table.size r.1.table.buckets

def Writable (d : Dict K V) : Prop :=
  (allValues d.values d.table.nodes).length * value.size < 2 ^ 63 ∧
    d.table.total * node.size < 2 ^ 63
  deriving Decidable

def Valid (d : Dict K V) : Prop := Kept (Table.Inv hash) 1 d.values d.table

variable {hash} {sorter} {value} {node} {d e : Dict K V}

omit [Inhabited K] [Inhabited V] in
theorem Valid.rep (h : d.Valid hash) : d.Rep :=
  ⟨h.table.rep, h.arrays, fun n hn => ⟨by have := h.sizes n hn; omega, (h.sizes n hn).2⟩⟩

omit [Inhabited K] [Inhabited V] in
theorem writeTo_post (h : d.Valid hash) (hbytes : d.Writable value node) :
    Post (fun os => ∃ vs ws, os = (leBytes 8 d.table.size ++ ((leBytes 8 (vs.length * value.size) ++
        value.encodeAll vs) ++ (leBytes 8 (ws.length * node.size) ++ node.encodeAll ws)), true) ∧
        vs.length * value.size < 2 ^ 63 ∧ ws.length * node.size < 2 ^ 63 ∧
        List.Forall₂ (Packed d.values vs) d.table.nodes ws)
      Never (writeTo value node d) := by
  have hroom : (allValues d.values d.table.nodes).length < 2 ^ 63 :=
    lt_of_le_of_lt (Nat.le_mul_of_pos_right _ value.pos) hbytes.1
  rw [writeTo, h.table.rep.allNodes_eq]
  apply (pack_post h.arrays h.sizes hroom).bind
  rintro ⟨vs, ws⟩ hws
  have hlen : vs.length * value.size < 2 ^ 63 := by
    rw [show vs = _ from hws.values]
    exact hbytes.1
  have hlen' : ws.length * node.size < 2 ^ 63 := by
    rw [← hws.nodes.length_eq, ← h.table.total]
    exact hbytes.2
  refine ⟨vs, ws, ?_, hlen, hlen', hws.nodes⟩
  rw [writePool, writeVector_eq value hlen, writeVector_eq node hlen']
  rfl

theorem copy_post (h : d.Valid hash) (he : e.Valid hash) (hbytes : d.Writable value node) :
    Post (fun r => Same hash d r ∧ r.1.Valid hash) Never (copy hash sorter value node d e) := by
  apply (writeTo_post h hbytes).bind
  rintro ⟨os, written⟩ ⟨vs, ws, heq, hlen, hlen', hws⟩
  cases heq
  have hreadable : PoolReadable value node (fun _ => true) e.values
      (leBytes 8 d.table.size ++ ((leBytes 8 (vs.length * value.size) ++ value.encodeAll vs) ++
        (leBytes 8 (ws.length * node.size) ++ node.encodeAll ws))) d.table.size vs ws := by
    refine ⟨⟨_, _, [], rfl, ?_, node.image_encodeAll ws []⟩, ⟨h.table.pos, h.table.size_lt⟩,
      ⟨hlen, hlen'⟩, fun _ => rfl, fun _ => rfl, rfl, fun _ _ => rfl⟩
    have himage := value.image_encodeAll vs
      (leBytes 8 (ws.length * node.size) ++ (node.encodeAll ws ++ []))
    simpa using himage
  have hread := readPool_post hash sorter e.table e.reserved hreadable
  obtain ⟨r, hr, hloaded, hvalues, -, -, hdone⟩ := hread.exists_ok
  have hfrom : readFrom hash sorter value node (fun _ => true) e
      (leBytes 8 d.table.size ++ ((leBytes 8 (vs.length * value.size) ++ value.encodeAll vs) ++
        (leBytes 8 (ws.length * node.size) ++ node.encodeAll ws))) =
      .ok (⟨r.table, r.values, r.reserved⟩, true) := by
    rw [readFrom, freeDatas_eq (.inl he.rep)]
    dsimp only [bind, Except.bind]
    rw [hr, ← hdone]
  apply post_bind_ok hfrom
  -- where there are nodes there are values, and the vector has storage
  have hattach : ws.map (attach (V := V) (e.reserved || !vs.isEmpty)) = ws.map (attach true) := by
    apply map_congr_left
    intro w hw
    obtain ⟨n, -, hnw⟩ := Packed.of_mem hws hw
    have hne : vs.isEmpty = false := by
      rw [isEmpty_eq_false_iff]
      rintro rfl
      exact Nat.not_lt_zero _ hnw.inside
    rw [hne]
    simp
  rw [hattach] at hloaded
  have hentries := map_entry_eq hws
  have hkeys : (ws.map (attach (V := V) true)).map Prod.fst = d.table.nodes.map Prod.fst := by
    have hfst := congrArg (map Prod.fst) hentries
    simpa [map_map, entry, Function.comp_def] using hfst
  obtain ⟨hinv, htotal⟩ := hloaded.inv h.table hkeys
  have hnodes : ∀ x ∈ r.table.nodes, ∃ w ∈ ws, attach true w = x :=
    fun x hx => mem_map.mp (hloaded.perm.mem_iff.mp hx)
  have hcontents : (contents r.values r.table).Perm d.entries := by
    rw [hvalues, contents, entries, contents, ← hentries]
    exact hloaded.perm.map _
  refine ⟨⟨rfl, hcontents, htotal, hloaded.size_eq, hinv.layout⟩, hinv, ?_, ?_⟩
  · intro x hx
    obtain ⟨w, hw, rfl⟩ := hnodes x hx
    obtain ⟨n, -, hnw⟩ := Packed.of_mem hws hw
    rw [hvalues, hnw.holds.toList_eq]
    exact hnw.holds
  · intro x hx
    obtain ⟨w, hw, rfl⟩ := hnodes x hx
    obtain ⟨n, hn, hnw⟩ := Packed.of_mem hws hw
    have hsize := h.sizes n hn
    rw [(h.arrays n hn).size_eq, ← hnw.size] at hsize
    exact hsize

inductive Call (K V : Type)
  | act (a : Action K V)
  | copy (i j : Nat)

variable (hash) (sorter) (value) (node) in
def Call.exec : Call K V → Store (Dict K V) (Answer V) →
    Except HashError (Store (Dict K V) (Answer V))
  | .act a, s => Dict.exec hash sorter a s
  | .copy i j, s =>
    match s.objects[i]? with
    | none => .ok s
    | some d => s.call j fun e => do
      let (e', done) ← Dict.copy hash sorter value node d e
      .ok (e', [.flag done])

variable (value) (node) in
omit [LinearOrder K] [Inhabited K] [Inhabited V] in
def Call.Fits (s : Store (Dict K V) (Answer V)) : Call K V → Prop
  | .act a => Room s a
  | .copy i _ => ∀ d ∈ s.objects[i]?, Writable value node d

instance (s : Store (Dict K V) (Answer V)) : (c : Call K V) → Decidable (c.Fits value node s)
  | .act a => inferInstanceAs (Decidable (Room s a))
  | .copy i _ => inferInstanceAs (Decidable (∀ d ∈ s.objects[i]?, _))

variable (hash) (sorter) in
theorem Call.exec_valid (h : ∀ d ∈ s.objects, d.Valid hash)
    (c : Call K V) (hfits : c.Fits value node s) :
    Post (fun s' => ∀ d ∈ s'.objects, d.Valid hash) Never (c.exec hash sorter value node s) := by
  cases c with
  | act a => exact exec_kept (Table.tame_inv sorter) (Nat.le_refl 1) h a hfits
  | copy i j =>
    rw [Call.exec]
    split
    · exact h
    · next d hi =>
      apply Store.post_call_all h
      intro e _ he
      have hcopy : Post (fun r => Same hash d r ∧ r.1.Valid hash) Never
          (Dict.copy hash sorter value node d e) :=
        copy_post (h d (mem_of_getElem? hi)) he (hfits d hi)
      apply hcopy.bind
      exact fun r hr => hr.2

end Dict

/-! ## Runs -/

section
variable {K V : Type} [LinearOrder K] [Inhabited K] [Inhabited V] (hash : K → Nat)
  (sorter : Sorter (K × V) Prod.fst) (asorter : Sorter (K × Values V) Prod.fst)
  (node : Pod (K × V)) (value : Pod V) (wire : Pod (WireNode K))

/-- In every run, what one map writes any map can read. A run stops only where a key is looked for
after `clear`. -/
theorem runs_roundtrip : (∀ calls : List (HashMap.Call K V),
      Along (HashMap.Call.exec hash sorter node) (fun s c => c.Fits node s) calls .empty →
      Post (fun s => ∀ t ∈ s.objects, ∀ u ∈ s.objects, t.total * node.size < 2 ^ 63 →
          Post (HashMap.Same hash t) (fun _ => False) (HashMap.copy hash sorter node t u))
        (· = .remainderByZero) (run (HashMap.Call.exec hash sorter node) calls .empty)) ∧
    (∀ calls : List (Dict.Call K V),
      Along (Dict.Call.exec hash asorter value wire) (fun s c => c.Fits value wire s) calls .empty →
      Post (fun s => ∀ d ∈ s.objects, ∀ e ∈ s.objects, d.Writable value wire →
          Post (Dict.Same hash d) (fun _ => False) (Dict.copy hash asorter value wire d e))
        (fun _ => False) (run (Dict.Call.exec hash asorter value wire) calls .empty)) := by
  constructor
  · intro calls hfits
    have hrun := post_run (fun s c hs hc => HashMap.Call.exec_valid hash sorter hs c hc) calls
      .empty hfits fun t ht => absurd ht not_mem_nil
    apply hrun.imp
    intro s hs t ht u _ hbytes
    exact (HashMap.copy_post (hs t ht) hbytes).imp (fun r hr => hr.1)
  · intro calls hfits
    have hrun := post_run (fun s c hs hc => Dict.Call.exec_valid hash asorter hs c hc) calls
      .empty hfits fun t ht => absurd ht not_mem_nil
    apply hrun.imp
    intro s hs d hd e he hbytes
    exact (Dict.copy_post (hs d hd) (hs e he) hbytes).imp (fun r hr => hr.1)

end

def copiedMaps : List (HashMap.Call Byte Byte) :=
  [.act (.new 1), .act (.set 0 5 6), .act (.set 0 7 8), .act (.new 3), .copy 0 1, .clear 0,
    .swap 0 1, .copy 1 0]

def copiedDicts : List (Dict.Call Byte Byte) :=
  [.act (.new 1), .act (.insert 0 5 [1, 2]), .act (.insert 0 7 [3]), .act (.new 3), .copy 0 1,
    .act (.insert 1 5 [4, 5]), .act (.del 1 7), .copy 1 0]

theorem copiedMaps_fit : Along (HashMap.Call.exec Fin.val (.insertion Prod.fst) pairPod)
    (fun s c => c.Fits pairPod s) copiedMaps .empty := by
  decide +kernel

theorem copiedDicts_fit : Along (Dict.Call.exec Fin.val (.insertion Prod.fst) bytePod wirePod)
    (fun s c => c.Fits bytePod wirePod s) copiedDicts .empty := by
  decide +kernel

theorem runs_roundtrip_copied :
    Post (fun s => ∀ t ∈ s.objects, ∀ u ∈ s.objects, t.total * pairPod.size < 2 ^ 63 →
        Post (HashMap.Same Fin.val t) (fun _ => False)
          (HashMap.copy Fin.val (.insertion Prod.fst) pairPod t u))
      (· = .remainderByZero)
      (run (HashMap.Call.exec Fin.val (.insertion Prod.fst) pairPod) copiedMaps .empty) ∧
    Post (fun s => ∀ d ∈ s.objects, ∀ e ∈ s.objects, d.Writable bytePod wirePod →
        Post (Dict.Same Fin.val d) (fun _ => False)
          (Dict.copy Fin.val (.insertion Prod.fst) bytePod wirePod d e))
      (fun _ => False)
      (run (Dict.Call.exec Fin.val (.insertion Prod.fst) bytePod wirePod) copiedDicts .empty) := by
  obtain ⟨hmaps, hdicts⟩ := runs_roundtrip Fin.val (.insertion Prod.fst) (.insertion Prod.fst)
    pairPod bytePod wirePod
  exact ⟨hmaps copiedMaps copiedMaps_fit, hdicts copiedDicts copiedDicts_fit⟩

/-! ## Arrays of 2³¹ values -/

def fiveOne : Dict Byte Byte := ⟨⟨2, 1, some [[], [(5, ⟨1, .own [1]⟩)]]⟩, [], false⟩

def fiveArray (size : Int) (vs : List Byte) : Dict Byte Byte :=
  ⟨⟨2, 1, some [[], [(5, ⟨size, .own vs⟩)]]⟩, [], false⟩

theorem insert_fiveOne {vs : List Byte} (hint : asInt vs.length = size)
    (hpos : vs.length ≠ 0) (hne : (1 : Int) ≠ size) :
    Dict.insert Fin.val (.insertion Prod.fst) fiveOne 5 vs = .ok (fiveArray size vs) := by
  have hrehash : fiveOne.table.autoRehash Fin.val (.insertion Prod.fst) = .ok fiveOne.table := by
    decide +kernel
  have hlocate : fiveOne.table.locate Fin.val 5 = .ok (1, [(5, ⟨1, .own [1]⟩)], some 0) := by
    decide +kernel
  rw [Dict.insert, if_neg hpos, hint, hrehash]
  dsimp only [bind, Except.bind]
  rw [hlocate]
  dsimp only [Table.nodeAt, getElem?_cons_zero]
  rw [if_neg hne]
  rfl

theorem copy_fiveArray (hneg : size < 0) (vs e) :
    Dict.copy Fin.val (.insertion Prod.fst) bytePod wirePod (fiveArray size vs) e =
      .error .invalidRange := by
  have hread : Values.read ([] : List Byte) ⟨size, .own vs⟩ = .error .invalidRange := by
    rw [Values.read, if_pos hneg]
  have hwrite : Dict.writeTo bytePod wirePod (fiveArray size vs) = .error .invalidRange := by
    have hnodes : (fiveArray size vs).table.allNodes = .ok [(5, ⟨size, .own vs⟩)] := rfl
    rw [Dict.writeTo, hnodes]
    dsimp only [bind, Except.bind, foldlM, packNode, fiveArray]
    rw [hread]
  rw [Dict.copy, hwrite]
  rfl

def replacedRun (vs : List Byte) : List (Dict.Call Byte Byte) :=
  [.act (.new 1), .act (.insert 0 5 [1])] ++ [.act (.insert 0 5 vs)]

theorem replacedRun_eq {vs : List Byte} (hint : asInt vs.length = size)
    (hpos : vs.length ≠ 0) (hne : (1 : Int) ≠ size) :
    run (Dict.Call.exec Fin.val (.insertion Prod.fst) bytePod wirePod) (replacedRun vs) .empty =
      .ok ⟨[fiveArray size vs], [.flag true, .flag true]⟩ := by
  have hbefore : run (Dict.Call.exec Fin.val (.insertion Prod.fst) bytePod wirePod)
      [.act (.new 1), .act (.insert 0 5 [1])] .empty = .ok ⟨[fiveOne], [.flag true]⟩ := by
    decide +kernel
  have hlast : Dict.Call.exec Fin.val (.insertion Prod.fst) bytePod wirePod
      (.act (.insert 0 5 vs)) ⟨[fiveOne], [.flag true]⟩ =
      .ok ⟨[fiveArray size vs], [.flag true, .flag true]⟩ := by
    rw [Dict.Call.exec, Dict.exec, Store.call, getElem?_cons_zero]
    dsimp only
    rw [insert_fiveOne hint hpos hne]
    rfl
  rw [replacedRun, run_append, hbefore]
  dsimp only [bind, Except.bind, run]
  rw [hlast]

/-- A dictionary in which an array was replaced by one of 2³¹ values cannot be written. -/
theorem runs_lose_roundtrip :
    Post (fun s => ∃ d ∈ s.objects, Dict.copy Fin.val (.insertion Prod.fst) bytePod wirePod d d =
        .error .invalidRange) (fun _ => False)
      (run (Dict.Call.exec Fin.val (.insertion Prod.fst) bytePod wirePod)
        (replacedRun (List.replicate (2 ^ 31) 0)) .empty) := by
  have hlen : (replicate (2 ^ 31) (0 : Byte)).length = 2 ^ 31 := length_replicate
  generalize replicate (2 ^ 31) (0 : Byte) = vs at hlen
  have hint : asInt vs.length = -2 ^ 31 := by
    rw [hlen]
    decide
  rw [replacedRun_eq hint (by omega) (by decide)]
  exact ⟨_, mem_cons_self, copy_fiveArray (by decide) vs _⟩

end Helens.Ds
