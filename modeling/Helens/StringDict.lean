import Helens.Dict
import Mathlib.Data.List.TakeWhile

/-! `StringDict`: strings in a `Dict`, each under two `murmur3_hash` values as its id. -/

namespace Helens.Ds
open Lib.Runs Lib.SortedVector Lib.Words Lib.FiniteMap List

abbrev StringDict := Dict Nat UInt8

namespace StringDict

/-! ## The code -/

def rotl (x r : UInt32) : UInt32 := x <<< r ||| x >>> (32 - r)

def fmix32 (h : UInt32) : UInt32 :=
  let h := (h ^^^ h >>> 16) * 0x85ebca6b
  let h := (h ^^^ h >>> 13) * 0xc2b2ae35
  h ^^^ h >>> 16

def scramble (bytes : List UInt8) : UInt32 :=
  rotl (UInt32.ofNat (ofLeBytes bytes) * 0xcc9e2d51) 15 * 0x1b873593

/-- The words of four bytes, and the tail. -/
def mix (h : UInt32) : List UInt8 → UInt32
  | [] => h
  | a :: b :: c :: d :: rest =>
    mix (rotl (h ^^^ scramble [a, b, c, d]) 13 * 5 + 0xe6546b64) rest
  | tail => h ^^^ scramble tail

/-- The first `size` bytes at `str`, which are fewer than 2³¹: `len` is an `int`. -/
def murmur3Hash (str : List UInt8) (size seed : UInt32) : UInt32 :=
  fmix32 (mix seed (str.take size.toNat) ^^^ size)

def murmur3Hash64 (str : List UInt8) (size : UInt32) : UInt64 :=
  (murmur3Hash str size 1060627423).toUInt64 <<< 32 ||| (murmur3Hash str size 1050126127).toUInt64

/-- A `std::string`, a pointer with a size, a C string. -/
inductive Overload
  | string | sized | cString

/-- Up to the first NUL. -/
def cText (s : List UInt8) : List UInt8 := s.takeWhile (· ≠ 0)

def getID : Overload → List UInt8 → UInt64
  | .string, s => if s.isEmpty then 0 else murmur3Hash64 (s ++ [0]) (UInt32.ofNat s.length)
  | .sized, s => if UInt32.ofNat s.length = 0 then 0
    else murmur3Hash64 (s ++ [0]) (UInt32.ofNat s.length)
  | .cString, s => murmur3Hash64 (s ++ [0]) (UInt32.ofNat (cText s).length)

/-- `update` of a `std::string` calls that with its pointer and size. -/
def idOf : Overload → List UInt8 → UInt64
  | .cString, s => getID .cString s
  | _, s => getID .sized s

def text : Overload → List UInt8 → List UInt8
  | .cString, s => cText s
  | _, s => s

/-- The member `m_dict` is a `Dict()` of size 0: the logarithm in `basket(0)` is undefined, and its
value is taken to be `1 << e`. -/
def new (e : Nat) : StringDict := { table := .withBuckets (2 ^ e), values := [], reserved := false }

section
variable (hash : Nat → Nat) (sorter : Sorter (Nat × Values UInt8) Prod.fst) (d : StringDict)

def update (o : Overload) (s : List UInt8) : Except HashError (StringDict × UInt64) :=
  if idOf o s = 0 then .ok (d, 0)
  else do
    let d ← d.insert hash sorter (idOf o s).toNat (text o s)
    .ok (d, idOf o s)

/-- `getString`, which is empty where there is no key. -/
def get (id : UInt64) : Except HashError (List UInt8) := do
  let v ← Dict.get hash d id.toNat
  .ok (v.getD [])

def updates : StringDict → List (Overload × List UInt8) → Except HashError StringDict
  | d, [] => .ok d
  | d, c :: calls => do
    let r ← update hash sorter d c.1 c.2
    updates r.1 calls

end

/-! ## The ids -/

theorem cText_eq (h : 0 ∉ s) : cText s = s :=
  takeWhile_eq_self_iff.mpr fun c hc => by simpa using fun h0 : c = 0 => h (h0 ▸ hc)

theorem length_text (o s) : (text o s).length ≤ s.length := by
  cases o with
  | cString => exact (takeWhile_sublist _).length_le
  | _ => rfl

theorem getID_eq (hs : s ≠ []) (h0 : 0 ∉ s) (hlt : s.length < 2 ^ 31) (o o') :
    getID o s = getID o' s := by
  have hsize : UInt32.ofNat s.length ≠ 0 := by
    intro h
    have hmod := congrArg UInt32.toNat h
    have hpos := length_pos_iff.mpr hs
    simp at hmod
    omega
  have hall : ∀ o, getID o s = murmur3Hash64 (s ++ [0]) (UInt32.ofNat s.length) := by
    intro o
    cases o with
    | string => exact if_neg (by simpa using hs)
    | sized => exact if_neg hsize
    | cString => rw [getID, cText_eq h0]
  rw [hall, hall]

/-! ## Runs of `update` -/

variable {hash : Nat → Nat} {sorter : Sorter (Nat × Values UInt8) Prod.fst} {d : StringDict}

/-- No stream was read, so every array is that of its node. -/
structure Ready (hash : Nat → Nat) (d : StringDict) : Prop where
  values : d.values = []
  table : Sound hash [] d.table

abbrev stored (d : StringDict) : Nat → Option (List UInt8) := valueOf (contents [] d.table)

theorem get_post (h : Ready hash d) (id) :
    Post (· = (stored d id.toNat).getD []) Never (get hash d id) := by
  have hs := h.table
  have hget : Post (· = stored d id.toNat) Never (Dict.get hash d id.toNat) := by
    rw [Dict.get, h.values]
    apply (Table.locate_post hs.inv id.toNat).bind
    intro found hfound
    cases hfound with
    | absent hb hk => exact (valueOf_contents_none hk).symm
    | present hb hi =>
      have hx := hs.holds hb hi
      have hsize := hx.size_eq
      apply post_bind_ok (Table.nodeAt_eq hi)
      rw [if_neg (by dsimp only; omega)]
      apply post_bind_ok hx.read_eq
      exact (hs.valueOf_contents hb hi).symm
  apply hget.bind
  rintro v rfl
  rfl

theorem insert_post (h : Ready hash d) (k) (hvs : vs ≠ []) (hlt : vs.length < 2 ^ 31)
    (htotal : d.table.total + 1 < 2 ^ 31) :
    Post (fun d' => Ready hash d' ∧ d'.table.total ≤ d.table.total + 1 ∧
        ∃ before, Update (contents [] d.table) (contents [] d'.table) k before (some vs))
      Never (d.insert hash sorter k vs) := by
  rw [Dict.insert, if_neg (by simpa using hvs)]
  refine h.table.locate_rehashed fun t found ht hperm hfound => ?_
  have hsame : t.total = d.table.total := by
    rw [← ht.length_contents, hperm.length_eq, h.table.length_contents]
  cases hfound with
  | absent hb hk =>
    dsimp only
    rw [asInt_of_lt hlt, if_neg (by omega)]
    obtain ⟨hsound, hnew⟩ := ht.addNode hb hk (by omega) (.own vs) hlt
    have hupdate := Update.add (keys_contents [] ▸ hk) hnew
    refine ⟨⟨h.values, hsound⟩, ?_, none, hupdate.perm_left hperm.symm⟩
    rw [← hsound.length_contents, hnew.length_eq, length_cons, ht.length_contents, hsame]
  | present hb hi =>
    rename_i b i x
    have hx := ht.holds hb hi
    obtain ⟨hsound, rest, hold, hnew⟩ := ht.writeNode hb hi (.own vs) hlt
    have hupdate := (Update.write hold hnew).perm_left hperm.symm
    dsimp only
    apply post_bind_ok (Table.nodeAt_eq hi)
    dsimp only
    rw [asInt_of_lt hlt]
    split
    · next hsize =>
      cases hval : x.val with
      | null =>
        rw [hx.size_eq, hx.eq_nil hval] at hsize
        exact absurd hsize.symm (by simpa using hvs)
      | own old =>
        rw [Dict.copyInto_own (h.values ▸ hx) hval hsize]
        exact ⟨⟨h.values, hsound⟩, Nat.le_succ_of_le hsame.le, _, hupdate⟩
      | shared offset => exact absurd (hx.le_length hval).1 (Nat.not_lt_zero _)
    · apply post_bind_ok (h.values ▸ hx.release_eq)
      exact ⟨⟨h.values, hsound⟩, Nat.le_succ_of_le hsame.le, _, hupdate⟩

theorem update_post (h : Ready hash d) (o) (hlt : s.length < 2 ^ 31)
    (htotal : d.table.total + 1 < 2 ^ 31) :
    Post (fun r => Ready hash r.1 ∧ r.1.table.total ≤ d.table.total + 1 ∧ r.2 = idOf o s ∧
        ∀ k, stored r.1 k = if k = (idOf o s).toNat ∧ idOf o s ≠ 0 ∧ text o s ≠ [] then
          some (text o s) else stored d k)
      Never (update hash sorter d o s) := by
  rw [update]
  split
  · next h0 => exact ⟨h, Nat.le_succ _, h0.symm, fun k => (if_neg fun hk => hk.2.1 h0).symm⟩
  · next h0 =>
    by_cases htext : text o s = []
    · rw [Dict.insert, if_pos (by simpa using htext)]
      exact ⟨h, Nat.le_succ _, rfl, fun k => (if_neg fun hk => hk.2.2 htext).symm⟩
    · have hlen := length_text o s
      apply (insert_post h (idOf o s).toNat htext (by omega) htotal).bind
      rintro d' ⟨hd, hle, before, hupdate⟩
      refine ⟨hd, hle, rfl, fun k => ?_⟩
      split
      · next hk =>
        rw [hk.1]
        exact hupdate.valueOf_after hd.table.nodup h.table.nodup
      · next hk =>
        have hne : k ≠ (idOf o s).toNat := fun heq => hk ⟨heq, h0, htext⟩
        exact hupdate.valueOf_of_ne hd.table.nodup h.table.nodup hne

theorem updates_post (h : Ready hash d) (calls) (hroom : d.table.total + calls.length < 2 ^ 31)
    (hlen : ∀ c ∈ calls, c.2.length < 2 ^ 31) :
    Post (fun d' => Ready hash d' ∧ d'.table.total ≤ d.table.total + calls.length ∧
        ∀ k v, stored d k = some v → (∀ c ∈ calls, text c.1 c.2 ≠ [] →
          (idOf c.1 c.2).toNat = k → text c.1 c.2 = v) → stored d' k = some v)
      Never (updates hash sorter d calls) := by
  induction calls generalizing d with
  | nil => exact ⟨h, Nat.le_refl _, fun k v hv _ => hv⟩
  | cons c calls ih =>
    rw [forall_mem_cons] at hlen
    rw [length_cons] at hroom ⊢
    apply (update_post h c.1 hlen.1 (by omega)).bind
    rintro r ⟨hr, hle, -, hstored⟩
    apply (ih hr (by omega) hlen.2).imp
    rintro d' ⟨hd, hle', hkept⟩
    refine ⟨hd, by omega, fun k v hv hcalls => ?_⟩
    rw [forall_mem_cons] at hcalls
    refine hkept k v ?_ hcalls.2
    rw [hstored]
    split
    · next hk => rw [hcalls.1 hk.2.2 hk.1.symm]
    · exact hv

/-- A string has one id, and is found under it until another one with this id is stored. -/
theorem strings_found (hash : Nat → Nat) (sorter : Sorter (Nat × Values UInt8) Prod.fst)
    (e : Nat) (he : e ≤ 30) (s : List UInt8) (hs : s ≠ []) (h0 : 0 ∉ s)
    (hid : getID .string s ≠ 0) (o : Overload) (before after : List (Overload × List UInt8))
    (hroom : before.length + after.length + 1 < 2 ^ 31)
    (hlen : ∀ c ∈ before ++ (o, s) :: after, c.2.length < 2 ^ 31)
    (hsame : ∀ c ∈ after, text c.1 c.2 ≠ [] → idOf c.1 c.2 = getID .string s → text c.1 c.2 = s) :
    (∀ o o', getID o s = getID o' s) ∧ Post (· = s) Never (do
      let d ← updates hash sorter (new e) before
      let (d, id) ← update hash sorter d o s
      let d ← updates hash sorter d after
      get hash d id) := by
  simp only [forall_mem_append, forall_mem_cons] at hlen
  obtain ⟨hbefore, hlt, hafter⟩ := hlen
  have hids := getID_eq hs h0 hlt
  have hidOf : idOf o s = getID .string s := by
    cases o with
    | cString => exact hids .cString _
    | _ => exact hids .sized _
  have htext : text o s = s := by
    cases o with
    | cString => exact cText_eq h0
    | _ => rfl
  have hnew : Ready hash (new e) :=
    ⟨rfl, (Sound.of_empty (Table.withBuckets_inv hash ⟨e, he, rfl⟩)).1⟩
  have hzero : (new e).table.total = 0 := rfl
  refine ⟨hids, ?_⟩
  apply (updates_post hnew before (by omega) hbefore).bind
  rintro d ⟨hd, hle, -⟩
  apply (update_post hd o hlt (by omega)).bind
  rintro ⟨d, id⟩ ⟨hd, hle', rfl, hstored⟩
  apply (updates_post hd after (by dsimp only at *; omega) hafter).bind
  rintro d ⟨hd, -, hkept⟩
  apply (get_post hd _).imp
  rintro v rfl
  rw [hkept _ s]
  · rfl
  · rw [hstored, if_pos ⟨rfl, hidOf ▸ hid, by rwa [htext]⟩, htext]
  · intro c hc hne heq
    exact hsame c hc hne (hidOf ▸ UInt64.toNat_inj.mp heq)

theorem strings_found_a : getID .cString [97] = getID .string [97] ∧ Post (· = [97]) Never (do
    let d ← updates id (.insertion Prod.fst) (new 0) [(.string, [98]), (.cString, [97])]
    let (d, i) ← update id (.insertion Prod.fst) d .sized [97]
    let d ← updates id (.insertion Prod.fst) d [(.cString, [99]), (.string, [])]
    get id d i) := by
  obtain ⟨hids, hrun⟩ := strings_found id (.insertion Prod.fst) 0 (by decide) [97] (by decide)
    (by decide) (by decide) .sized [(.string, [98]), (.cString, [97])]
    [(.cString, [99]), (.string, [])] (by decide) (by decide) (by decide +kernel)
  exact ⟨hids _ _, hrun⟩

/-- The hash of no bytes is no zero. -/
theorem getID_of_empty : getID .string [] = 0 ∧ getID .cString [] ≠ 0 := by decide

end StringDict

end Helens.Ds
