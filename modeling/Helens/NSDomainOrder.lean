import Helens.Lib.Linear
import Helens.NSDomainCalls

/-! The calls on a domain in one order. As long as no call replaces or erases a node set that others
use, an `add` takes effect where it writes, a `del` where it erases or loses its empty set. -/

namespace Helens.NS.Calls

open Lib.Linear Lib.Runs List

/-! ## Where calls take effect -/

/-- What a call has done: an `add` that has written, a `del` that has erased, found no set, or lost
its set. -/
def Call.taken (d : Domain) : Call → Option Op
  | .add cmd node .done => some (.add cmd node)
  | .add _ _ .get => none
  | .add _ _ .create => none
  | .add _ _ (.put _) => none
  | .del _ _ .get => none
  | .del cmd id (.erase ns) => if d.datas.lookup cmd = some ns then none else some (.del cmd id)
  | .del cmd id (.size _) => some (.del cmd id)
  | .del cmd id .drop => some (.del cmd id)
  | .del cmd id .done => some (.del cmd id)

/-- What a call does when the set under the command is taken away from under it. -/
def Call.loses (d : Domain) (cmd : UInt32) : Call → Option Op
  | .del cmd' id (.erase ns) =>
    if cmd' = cmd ∧ d.datas.lookup cmd = some ns then some (.del cmd' id) else none
  | _ => none

variable {cmd : UInt32} {s : State}

variable {d : Domain} {c : Call}

theorem Call.adds_loses {d' : Domain} {i : Call} (hi : i.Holds d)
    (hother : ∀ cmd', cmd' ≠ cmd → d'.datas.lookup cmd' = d.datas.lookup cmd')
    (hnew : ∀ ns, d.Made cmd ns → d'.datas.lookup cmd ≠ some ns) :
    Adds (i.taken d) (i.taken d') (i.loses d cmd) := by
  cases i with
  | add cmd' node pc => cases pc <;> exact .inl ⟨rfl, rfl⟩
  | del cmd' id pc =>
    cases pc with
    | erase ns =>
      unfold Call.taken Call.loses
      dsimp only
      by_cases hcmd : cmd' = cmd
      · subst hcmd
        have hne := hnew ns hi
        by_cases hns : d.datas.lookup cmd' = some ns
        · right
          simp [hns, hne]
        · left
          simp [hns, hne]
      · left
        simp [hcmd, hother cmd' hcmd]
    | _ => exact .inl ⟨rfl, rfl⟩

theorem mem_filterMap_loses {l : List Call} {o : Op}
    (h : o ∈ l.filterMap (Call.loses d cmd)) : ∃ id, o = .del cmd id := by
  obtain ⟨i, _, hi⟩ := mem_filterMap.mp h
  unfold Call.loses at hi
  split at hi
  · split at hi
    · rename_i heq
      obtain rfl := Option.some.inj hi
      exact ⟨_, by rw [heq.1]⟩
    · cases hi
  · cases hi

theorem find_foldl_del (cmd) {ops : List Op} (hops : ∀ o ∈ ops, ∃ id, o = .del cmd id)
    (he : ∀ id, NSDomain.find e cmd id = none) :
    NSDomain.find (ops.foldl Op.apply e) = NSDomain.find e := by
  induction ops generalizing e with
  | nil => rfl
  | cons o ops ih =>
    obtain ⟨id, rfl⟩ := hops o mem_cons_self
    have hsame : NSDomain.find (NSDomain.del e cmd id) = NSDomain.find e := by
      funext cmd' id'
      rw [NSDomain.find_del]
      split
      · rename_i heq
        rw [heq.1, he]
      · rfl
    have hrest := ih (fun o ho => hops o (mem_cons_of_mem _ ho))
      (e := NSDomain.del e cmd id) (by rw [hsame]; exact he)
    exact hrest.trans hsame

/-- Some order of what the calls have done leads to what is found in the domain. -/
def Explained (d : Domain) (calls : List Call) : Prop :=
  Explains Op.apply NSDomain.find ∅ (calls.filterMap (Call.taken d)) d.find

section
theorem Explained.own (h : Explained d calls) (hk : calls[k]? = some c)
    (hdatas : d'.datas = d.datas) (hown : Adds (c.taken d) (c'.taken d') o)
    (hfind : ∀ e, NSDomain.find e = d.find → NSDomain.find (o.toList.foldl Op.apply e) = d'.find) :
    Explained d' (calls.set k c') := by
  refine Explains.step h hk hown (g := fun _ => none) (fun i _ => .inl ⟨?_, rfl⟩) ?_
  · unfold Call.taken
    rw [hdatas]
  · intro e he
    rw [filterMap_none, append_nil]
    exact hfind e he

theorem Explained.replace (h : Explained d calls) (hk : calls[k]? = some c)
    (hholds : ∀ i ∈ calls, i.Holds d) (cmd)
    (hother : ∀ cmd', cmd' ≠ cmd → d'.datas.lookup cmd' = d.datas.lookup cmd')
    (hnew : ∀ ns, d.Made cmd ns → d'.datas.lookup cmd ≠ some ns)
    (htaken : c'.taken d' = c.taken d) (hempty : ∀ id, d.find cmd id = none)
    (hfind : d'.find = d.find) : Explained d' (calls.set k c') := by
  refine Explains.step h hk (o := none) (.inl ⟨htaken, rfl⟩)
    (fun i hi => Call.adds_loses (hholds i (mem_of_mem_eraseIdx hi)) hother hnew) ?_
  intro e he
  rw [Option.toList_none, nil_append, hfind, ← he]
  refine find_foldl_del cmd (fun o ho => mem_filterMap_loses ho) ?_
  rw [he]
  exact hempty

theorem Moves.explained (hm : Moves d c c' d') (h : Explained d calls) (hk : calls[k]? = some c)
    (hholds : ∀ i ∈ calls, i.Holds d) (hd : d.Mapped)
    (hfree : ∀ cmd, c.replaces = some cmd → ∀ id, d.find cmd id = none) :
    Explained d' (calls.set k c') := by
  have hc := hholds c (mem_of_getElem? hk)
  cases hm with
  | stay | addNone | addSome | sizeZero | sizeSome =>
    exact h.own hk rfl (o := none) (.inl ⟨rfl, rfl⟩) fun e he => he
  | delSome hns =>
    refine h.own hk rfl (o := none) (.inl ⟨?_, rfl⟩) fun e he => he
    exact if_pos hns
  | @delNone cmd id hns =>
    refine h.own hk rfl (.inr ⟨rfl, rfl⟩) fun e he => ?_
    have hnone : ∀ id, NSDomain.find e cmd id = none := by
      rw [he]
      exact Domain.find_of_none hns
    refine (find_foldl_del cmd (fun o ho => ⟨id, ?_⟩) hnone).trans he
    exact mem_singleton.mp ho
  | @put cmd node ns =>
    refine h.own hk rfl (.inr ⟨rfl, rfl⟩) fun e he => ?_
    funext cmd' id'
    change NSDomain.find (NSDomain.add e cmd node) cmd' id' = _
    rw [NSDomain.find_add, he]
    exact (Domain.find_modify_under hd hc (fun x => NSNodeSet.lookup_add x node) cmd' id').symm
  | @erase cmd id ns =>
    by_cases hns : d.datas.lookup cmd = some ns
    · -- the set is under the command: here the call takes effect
      refine h.own hk rfl (.inr ⟨if_pos hns, rfl⟩) fun e he => ?_
      funext cmd' id'
      change NSDomain.find (NSDomain.del e cmd id) cmd' id' = _
      rw [NSDomain.find_del, he]
      exact (Domain.find_modify_under hd hns (fun x => NSNodeSet.lookup_del x id) cmd' id').symm
    · -- nobody sees what happens to the set
      refine h.own hk rfl (o := none) (.inl ⟨(if_neg hns).symm, rfl⟩) fun e he => ?_
      have hmade : d.Made cmd ns := hc
      obtain ⟨x, hx, _⟩ := hmade
      funext cmd' id'
      have hne : d.datas.lookup cmd' ≠ some ns := by
        intro hns'
        rw [hd.eq hns' hc] at hns'
        exact hns hns'
      rw [Domain.find_modify d ns _ hx, if_neg hne, ← he]
      rfl
  | @create cmd node =>
    refine h.replace hk hholds cmd ?_ ?_ rfl (hfree cmd rfl) (Domain.find_create hd (hfree cmd rfl))
    · exact fun cmd' hne => AList.lookup_insert_ne hne
    · rintro ns ⟨x, hx, _⟩ hns
      rw [AList.lookup_insert] at hns
      have hlt := (List.getElem?_eq_some_iff.mp hx).1
      obtain rfl := Option.some.inj hns
      exact absurd hlt (Nat.lt_irrefl _)
  | @drop cmd id =>
    refine h.replace hk hholds cmd ?_ ?_ rfl (hfree cmd rfl) (Domain.find_drop (hfree cmd rfl))
    · exact fun cmd' hne => AList.lookup_erase_ne hne
    · intro ns _ hns
      rw [AList.lookup_erase] at hns
      cases hns

end

/-! ## Whole runs -/

structure Inv (s : State) : Prop where
  mapped : s.domain.Mapped
  holds : ∀ i ∈ s.calls, i.Holds s.domain
  tended : ∀ cmd ns, s.domain.datas.lookup cmd = some ns → s.domain.Empty ns →
    ∃ i ∈ s.calls, i.Tends cmd ns
  explained : Explained s.domain s.calls

theorem Inv.start (h : Inv s) (hholds : c.Holds s.domain)
    (htaken : c.taken s.domain = none) : Inv { s with calls := s.calls ++ [c] } where
  mapped := h.mapped
  holds := forall_mem_append.mpr ⟨h.holds, forall_mem_singleton.mpr hholds⟩
  tended := by
    intro cmd ns hns hempty
    obtain ⟨i, hi, ht⟩ := h.tended cmd ns hns hempty
    exact ⟨i, mem_append_left _ hi, ht⟩
  explained := h.explained.start htaken

theorem Inv.moves (h : Inv s) {k : Nat} {c' : Call} {d' : Domain}
    (hk : s.calls[k]? = some c) (hm : Moves s.domain c c' d')
    (hfree : ∀ cmd, c.replaces = some cmd → ∀ ns, s.domain.datas.lookup cmd = some ns →
      (∀ x ∈ s.domain.sets[ns]?, NSNodeSet.size x.datas = 0) ∧ ∀ i ∈ s.calls, i.puts ≠ some ns) :
    Inv { domain := d', calls := s.calls.set k c' } := by
  have hmem := mem_of_getElem? hk
  refine ⟨hm.mapped h.mapped, ?_, ?_, ?_⟩
  · intro i hi
    rcases mem_or_eq_of_mem_set hi with hi | rfl
    · exact (h.holds i hi).moves hm fun cmd ns hcmd hns => (hfree cmd hcmd ns hns).2 i hi
    · exact hm.holds (h.holds c hmem) h.mapped
  · intro cmd ns hns hempty
    rcases hm.tends (h.holds c hmem) h.mapped hns hempty with ht | ⟨hns', hempty', hkeep⟩
    · exact ⟨c', (mem_set_iff_eraseIdx hk c' c').mpr (.inl rfl), ht⟩
    · obtain ⟨i, hi, ht⟩ := h.tended cmd ns hns' hempty'
      rcases (mem_iff_eraseIdx hk i).mp hi with rfl | hi
      · exact ⟨c', (mem_set_iff_eraseIdx hk c' c').mpr (.inl rfl), hkeep ht⟩
      · exact ⟨i, (mem_set_iff_eraseIdx hk c' i).mpr (.inr hi), ht⟩
  · refine hm.explained h.explained hk h.holds h.mapped fun cmd hcmd id => ?_
    cases hns : s.domain.datas.lookup cmd with
    | none => exact Domain.find_of_none hns id
    | some ns =>
      obtain ⟨x, hx, _⟩ := h.mapped cmd ns hns
      rw [Domain.find_of_lookup hns hx]
      exact (NSNodeSet.size_eq_zero_iff _).mp ((hfree cmd hcmd ns hns).1 x hx) id

theorem Inv.step (h : Inv s) (hC : Unheld s a) : Inv (step a s) := by
  cases a with
  | add cmd node => exact h.start trivial rfl
  | del cmd id => exact h.start trivial rfl
  | step k =>
    unfold Calls.step
    dsimp only
    split
    · exact h
    · rename_i c hk
      exact h.moves hk (c.step_moves s.domain) fun cmd hcmd ns hns => hC c hk cmd hcmd ns hns

def Domain.contents (d : Domain) (cmd : UInt32) : Option (UInt64 → Option NSNode) :=
  (d.datas.lookup cmd).map fun _ => d.find cmd

def contents (d : NSDomain) (cmd : UInt32) : Option (UInt64 → Option NSNode) :=
  (d.lookup cmd).map fun _ => NSDomain.find d cmd

/-- The domain holds what the calls leave when they run one after the other, in some
order. -/
def Sequential (s : State) : Prop :=
  ∃ order : List Op, order.Perm (s.calls.map Call.op) ∧
    ∀ cmd, s.domain.contents cmd = contents (order.foldl Op.apply ∅) cmd

/-- If the call is an `add` that is through, and no call deletes the id of its node, then
the node's id is found. -/
def Call.Kept (s : State) : Call → Prop
  | .add cmd node .done =>
    (∀ i ∈ s.calls, i.op ≠ .del cmd node.id) → s.domain.find cmd node.id ≠ none
  | _ => True

theorem find_foldl_ne_none {id : UInt64} {ops : List Op} (hops : ∀ o ∈ ops, o ≠ .del cmd id)
    (h : NSDomain.find e cmd id ≠ none ∨ ∃ node, .add cmd node ∈ ops ∧ node.id = id) :
    NSDomain.find (ops.foldl Op.apply e) cmd id ≠ none := by
  induction ops generalizing e with
  | nil =>
    rcases h with h | ⟨_, h, _⟩
    · exact h
    · cases h
  | cons o ops ih =>
    refine ih (fun o ho => hops o (mem_cons_of_mem _ ho)) ?_
    have hne := hops o mem_cons_self
    cases o with
    | add cmd' node =>
      change NSDomain.find (NSDomain.add e cmd' node) cmd id ≠ none ∨ _
      rw [NSDomain.find_add]
      by_cases heq : cmd = cmd' ∧ id = node.id
      · left
        rw [if_pos heq]
        nofun
      · rw [if_neg heq]
        refine h.imp_right ?_
        rintro ⟨n, hn, rfl⟩
        rcases mem_cons.mp hn with hn | hn
        · cases hn
          exact absurd ⟨rfl, rfl⟩ heq
        · exact ⟨n, hn, rfl⟩
    | del cmd' id' =>
      change NSDomain.find (NSDomain.del e cmd' id') cmd id ≠ none ∨ _
      rw [NSDomain.find_del]
      have hneg : ¬ (cmd = cmd' ∧ id = id') := by
        rintro ⟨rfl, rfl⟩
        exact hne rfl
      rw [if_neg hneg]
      refine h.imp_right ?_
      rintro ⟨n, hn, rfl⟩
      rcases mem_cons.mp hn with hn | hn
      · cases hn
      · exact ⟨n, hn, rfl⟩

theorem Call.taken_op (h : c.taken d = some o) : c.op = o := by
  cases c with
  | add cmd node pc =>
    cases pc with
    | done => exact Option.some.inj h
    | _ => cases h
  | del cmd id pc =>
    cases pc with
    | get => cases h
    | erase ns =>
      unfold Call.taken at h
      dsimp only at h
      split at h
      · cases h
      · exact Option.some.inj h
    | _ => exact Option.some.inj h

theorem Inv.kept (h : Inv s) {i : Call} (hi : i ∈ s.calls) : i.Kept s := by
  obtain ⟨order, hperm, hfind⟩ := h.explained
  have hmem : ∀ o, o ∈ order ↔ ∃ c ∈ s.calls, c.taken s.domain = some o := by
    intro o
    rw [hperm.mem_iff, mem_filterMap]
  cases i with
  | add cmd node pc =>
    cases pc with
    | done =>
      intro hdels
      rw [← hfind]
      refine find_foldl_ne_none ?_ (.inr ⟨node, (hmem _).mpr ⟨_, hi, rfl⟩, rfl⟩)
      rintro o ho rfl
      obtain ⟨c, hc, htaken⟩ := (hmem _).mp ho
      exact hdels c hc (Call.taken_op htaken)
    | _ => trivial
  | del cmd id pc => trivial

theorem noEmpty_foldl (ops : List Op) (h : NSDomain.NoEmpty e) :
    NSDomain.NoEmpty (ops.foldl Op.apply e) := by
  induction ops generalizing e with
  | nil => exact h
  | cons o ops ih =>
    refine ih ?_
    cases o with
    | add cmd node => exact h.add cmd node
    | del cmd id => exact h.del cmd id

theorem contents_eq (hd : d.Mapped)
    (hempty : ∀ cmd ns, d.datas.lookup cmd = some ns → ¬ d.Empty ns) (he : NSDomain.NoEmpty e)
    (hfind : NSDomain.find e = d.find) (cmd) : d.contents cmd = contents e cmd := by
  unfold Domain.contents contents
  rw [hfind]
  cases hns : d.datas.lookup cmd with
  | none =>
    cases hset : e.lookup cmd with
    | none => rfl
    | some ns =>
      refine absurd ((NSNodeSet.size_eq_zero_iff ns).mpr fun id => ?_) (he cmd ns hset)
      rw [← NSDomain.find_of_lookup hset, hfind]
      exact Domain.find_of_none hns id
  | some ns =>
    obtain ⟨x, hx, _⟩ := hd cmd ns hns
    cases hset : e.lookup cmd with
    | none =>
      refine absurd ⟨x, hx, (NSNodeSet.size_eq_zero_iff _).mpr fun id => ?_⟩ (hempty cmd ns hns)
      rw [← Domain.find_of_lookup hns hx, ← hfind, NSDomain.find, hset]
      rfl
    | some ns' => rfl

theorem Call.taken_of_done (d) (h : c.isDone = true) : c.taken d = some c.op := by
  cases c with
  | add cmd node pc =>
    cases pc with
    | done => rfl
    | _ => cases h
  | del cmd id pc =>
    cases pc with
    | done => rfl
    | _ => cases h

theorem Call.Tends.not_done (h : c.Tends cmd ns) : c.isDone ≠ true := by
  cases c with
  | add cmd' node pc =>
    cases pc with
    | done => cases h
    | _ => nofun
  | del cmd' id pc =>
    cases pc with
    | done => cases h
    | _ => nofun

theorem Inv.sequential (h : Inv s) (hdone : ∀ i ∈ s.calls, i.isDone = true) : Sequential s := by
  obtain ⟨order, hperm, hfind⟩ := h.explained
  have htaken : s.calls.filterMap (Call.taken s.domain) = s.calls.map Call.op := by
    rw [← filterMap_eq_map]
    exact filterMap_congr fun c hc => Call.taken_of_done s.domain (hdone c hc)
  rw [htaken] at hperm
  refine ⟨order, hperm, contents_eq h.mapped ?_ (noEmpty_foldl order ?_) hfind⟩
  · intro cmd ns hns hempty
    obtain ⟨i, hi, ht⟩ := h.tended cmd ns hns hempty
    exact ht.not_done (hdone i hi)
  · intro cmd ns hns
    rw [AList.lookup_empty] at hns
    cases hns

/-- **As long as no call replaces or erases a node set that others use,** calls leave what some
order of them leaves, and added nodes are there. -/
theorem calls_linearize (as : List Action) (h : Along exec Unheld as init) :
    Post (fun s => ((∀ i ∈ s.calls, i.isDone = true) → Sequential s) ∧
      ∀ i ∈ s.calls, i.Kept s) (fun _ => False) (run exec as init) := by
  have hinit : Inv init := by
    refine ⟨?_, nofun, ?_, [], .nil, ?_⟩
    · intro cmd ns hns
      rw [init, AList.lookup_empty] at hns
      cases hns
    · intro cmd ns hns
      rw [init, AList.lookup_empty] at hns
      cases hns
    · funext cmd id
      rfl
  have hrun : Post Inv (fun _ => False) (run exec as init) :=
    post_run (fun s a hs hC => hs.step hC) as init h hinit
  exact hrun.imp (fun s hs => ⟨hs.sequential, fun i hi => hs.kept hi⟩)

def node1 : NSNode := { id := 1, ip := "10.0.0.1", port := 80, weight := 1 }

def node2 : NSNode := { id := 2, ip := "10.0.0.2", port := 80, weight := 1 }

def overlapping : List Action :=
  [.add 7 node1, .add 7 node2, .del 7 1, .step 0, .step 0, .step 0, .step 1, .step 2, .step 2,
    .step 1, .step 2]

theorem calls_linearize_overlapping : Along exec Unheld overlapping init ∧
      Post (fun s => ((∀ i ∈ s.calls, i.isDone = true) → Sequential s) ∧
        ∀ i ∈ s.calls, i.Kept s) (fun _ => False) (run exec overlapping init) :=
  ⟨by decide +kernel, calls_linearize overlapping (by decide +kernel)⟩

theorem Sequential.found (h : Sequential s) {node : NSNode} (hadd : .add cmd node .done ∈ s.calls)
    (hdels : ∀ i ∈ s.calls, i.op ≠ .del cmd node.id) : s.domain.find cmd node.id ≠ none := by
  obtain ⟨order, hperm, hcontents⟩ := h
  have hmem : ∀ o, o ∈ order ↔ ∃ c ∈ s.calls, c.op = o := by
    intro o
    rw [hperm.mem_iff, mem_map]
  have hseq : NSDomain.find (order.foldl Op.apply ∅) cmd node.id ≠ none := by
    refine find_foldl_ne_none ?_ (.inr ⟨node, (hmem _).mpr ⟨_, hadd, rfl⟩, rfl⟩)
    rintro o ho rfl
    obtain ⟨c, hc, hop⟩ := (hmem _).mp ho
    exact hdels c hc hop
  have hcmd := hcontents cmd
  unfold Domain.contents contents at hcmd
  cases hset : (order.foldl Op.apply ∅).lookup cmd with
  | none =>
    rw [NSDomain.find, hset] at hseq
    exact absurd rfl hseq
  | some ns =>
    rw [hset] at hcmd
    obtain ⟨_, _, hfind⟩ := Option.map_eq_some_iff.mp hcmd
    rw [hfind]
    exact hseq

def Lost (s : State) : Prop :=
  (∀ i ∈ s.calls, i.isDone = true) ∧ .add 7 node1 .done ∈ s.calls ∧
    (∀ i ∈ s.calls, i.op ≠ .del 7 node1.id) ∧ s.domain.find 7 node1.id = none

instance : DecidablePred Lost := fun s =>
  inferInstanceAs (Decidable (_ ∧ _))

/-- Two calls make a set for one command and the second takes the first's place; or a `del` erases a
set that has been filled since. -/
theorem replaced_set_loses_node : Post (fun s => (∀ i ∈ s.calls, i.isDone = true) ∧ ¬ Sequential s ∧
        ¬ ∀ i ∈ s.calls, i.Kept s) (fun _ => False)
      (run exec
        [.add 7 node1, .add 7 node2, .step 0, .step 1, .step 0, .step 0, .step 1, .step 1] init) ∧
    Post (fun s => (∀ i ∈ s.calls, i.isDone = true) ∧ ¬ Sequential s ∧
        ¬ ∀ i ∈ s.calls, i.Kept s) (fun _ => False)
      (run exec
        [.add 7 node2, .step 0, .step 0, .step 0, .del 7 2, .step 1, .step 1, .step 1, .add 7 node1,
          .step 2, .step 2, .step 1] init) := by
  have hlost : ∀ s, Lost s → (∀ i ∈ s.calls, i.isDone = true) ∧ ¬ Sequential s ∧
      ¬ ∀ i ∈ s.calls, i.Kept s := by
    rintro s ⟨hdone, hadd, hdels, hnone⟩
    exact ⟨hdone, fun h => h.found hadd hdels hnone, fun h => h _ hadd hdels hnone⟩
  have hfirst : Post Lost (fun _ => False) (run exec
      [.add 7 node1, .add 7 node2, .step 0, .step 1, .step 0, .step 0, .step 1, .step 1] init) := by
    decide +kernel
  have hsecond : Post Lost (fun _ => False) (run exec
      [.add 7 node2, .step 0, .step 0, .step 0, .del 7 2, .step 1, .step 1, .step 1, .add 7 node1,
        .step 2, .step 2, .step 1] init) := by
    decide +kernel
  exact ⟨hfirst.imp hlost, hsecond.imp hlost⟩

end Helens.NS.Calls
