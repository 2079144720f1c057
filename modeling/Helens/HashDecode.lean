import Helens.Dict
import Helens.HashMultimapStreams

/-! `readFrom` on arbitrary streams: it leaves the representation exactly where the stream is
complete and well formed and no allocation is refused, and on the representation every
later run of calls is defined. -/

namespace Helens.Ds

open Lib.Runs Lib.SortedVector Lib.Stores Lib.Words Lib.PlainData List

section
variable {K V : Type} [LinearOrder K] [Inhabited K] [Inhabited V] {hash : K → Nat}
  {sorter : Sorter (K × Values V) Prod.fst} {value : Pod V} {node : Pod (WireNode K)}
  {granted : Request → Bool} {is : List UInt8}

def Accepted (value : Pod V) (node : Pod (WireNode K)) (granted : Request → Bool) (old : List V)
    (reserved : Bool) (is : List UInt8) : Prop :=
  ∃ size vs ws, PoolReadable value node granted old is size vs ws ∧
    ∀ w ∈ ws, Attached (reserved || !vs.isEmpty) vs w

omit [Inhabited K] [Inhabited V] in
theorem Table.Loaded.kept {t : Table K (Values V)} {size : Nat} {vs : List V}
    {ws : List (WireNode K)} {reserved : Bool}
    (h : Table.Loaded hash size (ws.map (attach reserved)) t)
    (hws : ∀ w ∈ ws, Attached reserved vs w) : Kept Table.Rep 0 vs t := by
  have hnodes : ∀ n ∈ t.nodes, ∃ w ∈ ws, attach reserved w = n :=
    fun n hn => mem_map.mp (h.perm.mem_iff.mp hn)
  refine ⟨h.rep, ?_, ?_⟩
  · intro n hn
    obtain ⟨w, hw, rfl⟩ := hnodes n hn
    exact holds_attach_iff.mpr (hws w hw)
  · intro n hn
    obtain ⟨w, hw, rfl⟩ := hnodes n hn
    have hsize := (holds_attach_iff.mpr (hws w hw)).size_eq
    have hlt := BitVec.toInt_lt (x := w.2.1)
    constructor
    · omega
    · exact hlt

variable (hash) (sorter) in
theorem readPool_kept_iff (t) {values : List V} {reserved : Bool} :
    Post (fun r => Kept Table.Rep 0 r.values r.table) Never
        (readPool hash sorter value node granted t values reserved is) ↔
      Accepted value node granted values reserved is := by
  constructor
  · intro h
    have hrep := h.imp (fun r hr => hr.table)
    obtain ⟨size, vs, ws, hreadable⟩ := readable_of_readPool hrep
    obtain ⟨r, hr, hloaded, rfl, -⟩ :=
      (readPool_post hash sorter t reserved hreadable).exists_ok
    have hkept := h.of_ok hr
    refine ⟨size, r.values, ws, hreadable, fun w hw => ?_⟩
    apply holds_attach_iff.mp
    apply hkept.arrays
    exact hloaded.perm.mem_iff.mpr (mem_map_of_mem hw)
  · rintro ⟨size, vs, ws, hreadable, hws⟩
    apply (readPool_post hash sorter t reserved hreadable).imp
    rintro r ⟨hloaded, rfl, -⟩
    exact hloaded.kept hws

/-! ## `Dict` -/

def Dict.Rep (d : Dict K V) : Prop := Kept Table.Rep 0 d.values d.table

omit [Inhabited K] [Inhabited V] in
theorem Dict.freeDatas_eq {d : Dict K V} (h : d.Rep ∨ d.table.datas = none) :
    freeDatas d = .ok () := by
  unfold freeDatas
  rcases h with h | h
  · rw [h.table.datas]
    dsimp only
    rw [h.table.allNodes_eq]
    exact forM_eq_ok fun n hn => (h.arrays n hn).release_eq
  · rw [h]

theorem Dict.readFrom_rep_iff {d : Dict K V} (hd : d.Rep ∨ d.table.datas = none) :
    Post (fun r => r.1.Rep) Never (readFrom hash sorter value node granted d is) ↔
      Accepted value node granted d.values d.reserved is := by
  rw [← readPool_kept_iff hash sorter d.table, readFrom, freeDatas_eq hd]
  cases readPool hash sorter value node granted d.table d.values d.reserved is with
  | ok r => simp [bind, Except.bind, Dict.Rep]
  | error e => simp [bind, Except.bind]

/-! ## `HashMultimap` -/

structure HashMultimap.Rep (h : HashMultimap K V) : Prop where
  kept : Kept Table.Rep 0 h.values h.table
  elements : h.elements = (h.table.nodes.map fun n => n.2.size.toNat).sum % 2 ^ 64

omit [Inhabited K] [Inhabited V] in
theorem HashMultimap.freeDatas_eq {h : HashMultimap K V}
    (hh : Kept Table.Rep 0 h.values h.table ∨ h.table.datas = none) : freeDatas h = .ok () := by
  unfold freeDatas
  rcases hh with hh | hh
  · rw [hh.table.datas]
    dsimp only
    rw [hh.table.allNodes_eq]
    apply forM_eq_ok
    intro n hn
    split
    · rfl
    · exact (hh.arrays n hn).release_eq
  · rw [hh]

omit [LinearOrder K] [Inhabited K] [Inhabited V] in
theorem HashMultimap.countElements_eq {ns : List (K × Values V)}
    (hns : ∀ n ∈ ns, 0 ≤ n.2.size ∧ n.2.size < 2 ^ 31) :
    countElements ns = (ns.map fun n => n.2.size.toNat).sum % 2 ^ 64 := by
  induction ns using List.reverseRecOn with
  | nil => rfl
  | append_singleton ns n ih =>
    have hn := hns n (by simp)
    have hsize : (BitVec.ofInt 64 n.2.size).toNat = n.2.size.toNat := by
      rw [BitVec.toNat_ofInt]
      omega
    have hfold : countElements (ns ++ [n]) =
        addFetch (countElements ns) (BitVec.ofInt 64 n.2.size).toNat := by
      rw [countElements, foldl_append]
      rfl
    rw [hfold, ih fun m hm => hns m (by simp [hm]), hsize, addFetch, map_append,
      sum_append, Nat.mod_add_mod]
    rfl

theorem HashMultimap.readFrom_rep_iff {h : HashMultimap K V}
    (hh : Kept Table.Rep 0 h.values h.table ∨ h.table.datas = none) :
    Post (fun r => r.1.Rep) Never (readFrom hash sorter value node granted h is) ↔
      Accepted value node granted h.values h.reserved is := by
  constructor
  · intro hpost
    rw [← readPool_kept_iff hash sorter h.table]
    rw [readFrom, freeDatas_eq hh] at hpost
    cases hr : readPool hash sorter value node granted h.table h.values h.reserved is with
    | ok r =>
      simp only [bind, Except.bind, hr, post_ok] at hpost ⊢
      exact hpost.kept
    | error e =>
      simp only [bind, Except.bind, hr, post_error, Never] at hpost
  · rintro ⟨size, vs, ws, hreadable, hws⟩
    rw [readFrom, freeDatas_eq hh]
    apply (readPool_post hash sorter h.table h.reserved hreadable).bind
    rintro r ⟨hloaded, rfl, -, hpushed, -⟩
    have hkept := hloaded.kept hws
    refine ⟨hkept, ?_⟩
    rw [hpushed, Option.elim_some]
    have hsizes : ∀ n ∈ ws.map (attach (V := V) (h.reserved || !r.values.isEmpty)),
        0 ≤ n.2.size ∧ n.2.size < 2 ^ 31 := by
      intro n hn
      have hn' := hkept.sizes n (hloaded.perm.mem_iff.mpr hn)
      omega
    rw [countElements_eq hsizes]
    have hperm := hloaded.perm.map fun n : K × Values V => n.2.size.toNat
    rw [hperm.sum_eq]

end

/-! ## All streams -/

section
variable {K V : Type} [LinearOrder K] [LinearOrder V] [Inhabited K] [Inhabited V] (hash : K → Nat)
  (sorter : Sorter (K × V) Prod.fst) (asorter : Sorter (K × Values V) Prod.fst)
  (vsorter : Sorter V id) (node : Pod (K × V)) (value : Pod V) (wire : Pod (WireNode K))

/-- The representation is left, and no buffer overrun, exactly where the stream is readable; every
later run below 2³¹ nodes and values is defined. -/
theorem readFrom_represents_iff : (∀ granted (t : Table K V) is,
      (Post (fun r => r.1.Rep) (fun _ => False) (HashMap.readFrom hash sorter node granted t is) ↔
        ∃ size ns, HashMap.Readable node granted is size ns)) ∧
    (∀ granted (d : Dict K V) is, d.Rep ∨ d.table.datas = none →
      (Post (fun r => r.1.Rep) (fun _ => False)
          (Dict.readFrom hash asorter value wire granted d is) ↔
        Accepted value wire granted d.values d.reserved is)) ∧
    (∀ granted (h : HashMultimap K V) is, h.Rep ∨ h.table.datas = none →
      (Post (fun r => r.1.Rep) (fun _ => False)
          (HashMultimap.readFrom hash asorter value wire granted h is) ↔
        Accepted value wire granted h.values h.reserved is)) ∧
    (∀ (t : Table K V) acts, t.Rep → Along (HashMap.exec hash sorter) HashMap.Room acts ⟨[t], []⟩ →
      Post (fun s => ∀ t' ∈ s.objects, t'.Rep) (fun _ => False)
        (run (HashMap.exec hash sorter) acts ⟨[t], []⟩)) ∧
    (∀ (d : Dict K V) acts, d.Rep → Along (Dict.exec hash asorter) Dict.Room acts ⟨[d], []⟩ →
      Post (fun s => ∀ d' ∈ s.objects, d'.Rep) (fun _ => False)
        (run (Dict.exec hash asorter) acts ⟨[d], []⟩)) ∧
    (∀ (h : HashMultimap K V) acts, h.Rep →
      Along (HashMultimap.exec hash asorter vsorter) HashMultimap.Room acts ⟨[h], []⟩ →
      Post (fun s => ∀ h' ∈ s.objects, Kept Table.Rep 0 h'.values h'.table) (fun _ => False)
        (run (HashMultimap.exec hash asorter vsorter) acts ⟨[h], []⟩)) := by
  refine ⟨?_, ?_, ?_, ?_, ?_, ?_⟩
  · intro granted t is
    constructor
    · exact HashMap.readable_of_readFrom
    · rintro ⟨size, ns, h⟩
      exact (HashMap.readFrom_post h).imp (fun r hr => hr.1.rep)
  · intro granted d is hd
    exact Dict.readFrom_rep_iff hd
  · intro granted h is hh
    exact HashMultimap.readFrom_rep_iff (hh.imp_left HashMultimap.Rep.kept)
  · intro t acts ht hroom
    apply post_run (fun s a hs ha => HashMap.exec_kept Table.tame_rep hs a ha) acts _ hroom
    intro t' ht'
    rw [mem_singleton.mp ht']
    exact ht
  · intro d acts hd hroom
    apply post_run (fun s a hs ha => Dict.exec_kept Table.tame_rep (Nat.zero_le 1) hs a ha) acts _
      hroom
    intro d' hd'
    rw [mem_singleton.mp hd']
    exact hd
  · intro h acts hh hroom
    apply post_run (fun s a hs ha => HashMultimap.exec_kept Table.tame_rep hs a ha) acts _ hroom
    intro h' hh'
    rw [mem_singleton.mp hh']
    exact hh.kept

end

/-! ## Streams of bytes -/

abbrev Byte := Fin (256 ^ 1)

instance byte_neZero : NeZero (256 ^ 1) := ⟨by decide⟩

def bytePod : Pod Byte := Pod.number 1 (by decide)

def pairPod : Pod (Byte × Byte) := bytePod.pair bytePod

def wirePod : Pod (WireNode Byte) :=
  bytePod.pair ((Pod.bits 4 (by decide)).pair (Pod.bits 8 (by decide)))

def oneNode : Table Byte Byte := ⟨1, 1, some [[(3, 4)]]⟩

def noNodes {β : Type} : Table Byte β := ⟨2, 0, some [[], []]⟩

def fiveStream : List UInt8 :=
  leBytes 8 2 ++ (leBytes 8 2 ++ (bytePod.encodeAll [7, 8] ++
    (leBytes 8 13 ++ (wirePod.encodeAll [(5, 2, 0)] ++ []))))

theorem fiveStream_accepted (reserved) :
    Accepted bytePod wirePod (fun _ => true) [] reserved fiveStream := by
  refine ⟨2, [7, 8], [(5, 2, 0)], ⟨?_, by decide, by decide, fun _ => rfl, fun _ => rfl,
    ⟨rfl, fun _ _ => rfl⟩⟩, ?_⟩
  · exact ⟨_, _, _, rfl, bytePod.image_encodeAll [7, 8] _, wirePod.image_encodeAll [(5, 2, 0)] []⟩
  · cases reserved with
    | false =>
      intro w hw
      rw [mem_singleton.mp hw]
      exact ⟨by decide, by decide, by decide⟩
    | true =>
      intro w hw
      rw [mem_singleton.mp hw]
      exact ⟨by decide, by decide, by decide⟩

theorem oneNode_rep : oneNode.Rep :=
  ⟨by decide, rfl, rfl, fun b hb => by
    rw [mem_singleton.mp hb]
    exact pairwise_singleton _ _, rfl⟩

theorem readFrom_represents_five :
    Post (fun r => r.1.Rep) (fun _ => False) (Dict.readFrom Fin.val (.insertion Prod.fst) bytePod
      wirePod (fun _ => true) (⟨⟨1, 0, none⟩, [], false⟩ : Dict Byte Byte) fiveStream) ∧
    Post (fun r => r.1.Rep) (fun _ => False) (HashMultimap.readFrom Fin.val (.insertion Prod.fst)
      bytePod wirePod (fun _ => true) (⟨⟨1, 0, none⟩, 0, [], false⟩ : HashMultimap Byte Byte)
      fiveStream) ∧
    Post (fun s => ∀ t ∈ s.objects, t.Rep) (fun _ => False)
      (run (HashMap.exec Fin.val (.insertion Prod.fst)) [.set 0 5 6, .del 0 3, .get 0 5]
        ⟨[oneNode], []⟩) := by
  obtain ⟨-, hdict, hmultimap, hmap, -, -⟩ := readFrom_represents_iff Fin.val
    (.insertion Prod.fst) (.insertion Prod.fst) (.insertion id) pairPod bytePod wirePod
  refine ⟨?_, ?_, ?_⟩
  · exact (hdict _ _ _ (.inr rfl)).mpr (fiveStream_accepted false)
  · exact (hmultimap _ _ _ (.inr rfl)).mpr (fiveStream_accepted false)
  · exact hmap oneNode _ oneNode_rep (by decide +kernel)

/-- What is cut off leaves no buckets and makes the next remainder one by zero; a size that is no
multiple of the element's is read past the buffer. -/
theorem readFrom_breaks :
    (∃ t, HashMap.readFrom Fin.val (.insertion Prod.fst) pairPod (fun _ => true) noNodes
        [1, 0] = .ok (t, false) ∧ HashMap.get Fin.val t 5 = .error .nullDatas) ∧
    HashMap.readFrom Fin.val (.insertion Prod.fst) pairPod (fun _ => true) noNodes
      (leBytes 8 0 ++ leBytes 8 2 ++ [5, 6]) = .error .remainderByZero ∧
    HashMap.readFrom Fin.val (.insertion Prod.fst) pairPod (fun _ => true) noNodes
      (leBytes 8 2 ++ leBytes 8 3 ++ [5, 6, 7]) = .error .outsideArray ∧
    (∃ d, Dict.readFrom Fin.val (.insertion Prod.fst) bytePod wirePod (fun _ => true)
        ⟨noNodes, [], false⟩ (fiveStream.take 20) = .ok (d, false) ∧
      Dict.get Fin.val d 5 = .error .nullDatas) ∧
    (∃ h, HashMultimap.readFrom Fin.val (.insertion Prod.fst) bytePod wirePod (fun _ => true)
        ⟨noNodes, 0, [], false⟩ (fiveStream.take 20) = .ok (h, false) ∧
      HashMultimap.get Fin.val h 5 = .error .nullDatas) := by
  refine ⟨⟨⟨1, 0, none⟩, rfl, rfl⟩, rfl, rfl, ⟨⟨⟨2, 0, none⟩, [7, 8], true⟩, rfl, rfl⟩, ?_⟩
  exact ⟨⟨⟨2, 0, none⟩, 0, [7, 8], true⟩, rfl, rfl⟩

end Helens.Ds
