import Mathlib.Data.List.AList

/-! The directory of the name server: domains, in a domain one set of nodes for each
command, in a set one node for each id. `find` reads the three levels at once, and the
operations are known by what they do to it. -/

namespace Helens.NS

/-! ## Nodes -/

structure NSNode where
  id : UInt64
  ip : String
  port : UInt16
  weight : UInt32
  deriving DecidableEq

/-- `NSNode::GetID`, over what `inet_addr` returns. -/
def NSNode.getID (inetAddr : String → UInt32) (ip : String) (port : UInt16) : UInt64 :=
  ((inetAddr ip).toUInt64 <<< 32) ||| port.toUInt64

def NSNode.new (inetAddr : String → UInt32) (ip : String) (port : UInt16) (weight : UInt32) :
    NSNode :=
  { id := NSNode.getID inetAddr ip port, ip := ip, port := port, weight := weight }

/-! ## Sets, domains and the set of domains -/

abbrev NSNodeSet := AList fun _ : UInt64 => NSNode

def NSNodeSet.size (ns : NSNodeSet) : Nat := ns.entries.length

def NSNodeSet.add (ns : NSNodeSet) (info : NSNode) : NSNodeSet := ns.insert info.id info

def NSNodeSet.del (ns : NSNodeSet) (id : UInt64) : NSNodeSet := ns.erase id

abbrev NSDomain := AList fun _ : UInt32 => NSNodeSet

/-- `NSDomain::add(cmd, info)`: a missing set is created. -/
def NSDomain.add (d : NSDomain) (cmd : UInt32) (info : NSNode) : NSDomain :=
  match d.lookup cmd with
  | none => d.insert cmd (NSNodeSet.add ∅ info)
  | some ns => d.insert cmd (NSNodeSet.add ns info)

/-- `NSDomain::del(cmd, id)`: an empty set goes. -/
def NSDomain.del (d : NSDomain) (cmd : UInt32) (id : UInt64) : NSDomain :=
  match d.lookup cmd with
  | none => d
  | some ns =>
    let ns := NSNodeSet.del ns id
    if NSNodeSet.size ns = 0 then d.erase cmd else d.insert cmd ns

abbrev NSDomainSet := AList fun _ : String => NSDomain

/-! ## What is found -/

theorem foldl_writes {σ β γ : Type} {f : σ → β → σ} (look : σ → γ) {value : γ} {p : β → Prop}
    [DecidablePred p] (h : ∀ s b, look (f s b) = if p b then value else look s) (l : List β)
    (s) : look (l.foldl f s) = if ∃ b ∈ l, p b then value else look s := by
  induction l generalizing s with
  | nil => simp
  | cons b l ih =>
    rw [List.foldl_cons, ih, h]
    by_cases hb : p b
    · simp [hb]
    · simp [hb]

def NSDomain.find (d : NSDomain) (cmd : UInt32) (id : UInt64) : Option NSNode :=
  (d.lookup cmd).bind fun ns => ns.lookup id

def NSDomainSet.find (ds : NSDomainSet) (domain : String) (cmd : UInt32) (id : UInt64) :
    Option NSNode :=
  (ds.lookup domain).bind fun d => NSDomain.find d cmd id

theorem NSNodeSet.lookup_add (ns : NSNodeSet) (info : NSNode) (id) :
    (NSNodeSet.add ns info).lookup id = if id = info.id then some info else ns.lookup id := by
  unfold NSNodeSet.add
  split
  · rename_i h
    rw [h, AList.lookup_insert]
  · rename_i h
    rw [AList.lookup_insert_ne h]

theorem NSNodeSet.lookup_del (ns : NSNodeSet) (id id') :
    (NSNodeSet.del ns id).lookup id' = if id' = id then none else ns.lookup id' := by
  unfold NSNodeSet.del
  split
  · rename_i h
    rw [h, AList.lookup_erase]
  · rename_i h
    rw [AList.lookup_erase_ne h]

theorem NSNodeSet.size_eq_zero_iff (ns : NSNodeSet) :
    NSNodeSet.size ns = 0 ↔ ∀ id, ns.lookup id = none := by
  constructor
  · intro h id
    have hempty : ns = ∅ := AList.ext (List.eq_nil_of_length_eq_zero h)
    rw [hempty]
    exact AList.lookup_empty id
  · intro h
    refine List.length_eq_zero_iff.mpr (List.eq_nil_iff_forall_not_mem.mpr ?_)
    rintro ⟨id, info⟩ hmem
    have hlookup := AList.mem_lookup_iff.mpr hmem
    rw [h id] at hlookup
    cases hlookup

theorem NSDomain.find_insert (d : NSDomain) (cmd cmd') (ns : NSNodeSet) (id) :
    NSDomain.find (d.insert cmd ns) cmd' id =
      if cmd' = cmd then ns.lookup id else NSDomain.find d cmd' id := by
  unfold NSDomain.find
  split
  · rename_i h
    rw [h, AList.lookup_insert]
    rfl
  · rename_i h
    rw [AList.lookup_insert_ne h]

variable {d : NSDomain}

theorem NSDomain.find_of_lookup (h : d.lookup cmd = some ns)
    (id) : NSDomain.find d cmd id = ns.lookup id := by
  rw [NSDomain.find, h]
  rfl

theorem NSDomain.find_add (d cmd cmd') (info : NSNode) (id) :
    NSDomain.find (NSDomain.add d cmd info) cmd' id =
      if cmd' = cmd ∧ id = info.id then some info else NSDomain.find d cmd' id := by
  unfold NSDomain.add
  split
  · rename_i h
    rw [NSDomain.find_insert, NSNodeSet.lookup_add, AList.lookup_empty]
    by_cases hcmd : cmd' = cmd
    · subst hcmd
      simp [NSDomain.find, h]
    · simp [hcmd]
  · rename_i ns h
    rw [NSDomain.find_insert, NSNodeSet.lookup_add]
    by_cases hcmd : cmd' = cmd
    · subst hcmd
      simp [NSDomain.find_of_lookup h]
    · simp [hcmd]

theorem NSDomain.find_del (d cmd cmd' id id') :
    NSDomain.find (NSDomain.del d cmd id) cmd' id' =
      if cmd' = cmd ∧ id' = id then none else NSDomain.find d cmd' id' := by
  unfold NSDomain.del
  split
  · rename_i h
    split
    · rename_i heq
      rw [NSDomain.find, heq.1, h]
      rfl
    · rfl
  · rename_i ns h
    dsimp only
    by_cases hcmd : cmd' = cmd
    · subst hcmd
      rw [NSDomain.find_of_lookup h]
      split
      · -- the set is left empty, so nothing was found in it
        rename_i hsize
        have hnone := (NSNodeSet.size_eq_zero_iff _).mp hsize id'
        rw [NSNodeSet.lookup_del] at hnone
        rw [NSDomain.find, AList.lookup_erase]
        simpa using hnone.symm
      · rw [NSDomain.find_insert, if_pos rfl, NSNodeSet.lookup_del]
        simp
    · have hsame : ∀ d', AList.lookup cmd' d' = d.lookup cmd' →
          NSDomain.find d' cmd' id' = NSDomain.find d cmd' id' := by
        intro d' hd
        rw [NSDomain.find, hd]
        rfl
      have hne : ¬ (cmd' = cmd ∧ id' = id) := fun heq => hcmd heq.1
      rw [if_neg hne]
      split
      · exact hsame _ (AList.lookup_erase_ne hcmd)
      · exact hsame _ (AList.lookup_insert_ne hcmd)

theorem NSDomainSet.find_insert (ds : NSDomainSet) (domain domain' d cmd id) :
    NSDomainSet.find (ds.insert domain d) domain' cmd id =
      if domain' = domain then NSDomain.find d cmd id else NSDomainSet.find ds domain' cmd id := by
  unfold NSDomainSet.find
  split
  · rename_i h
    rw [h, AList.lookup_insert]
    rfl
  · rename_i h
    rw [AList.lookup_insert_ne h]

/-! ## No empty sets -/

def NSDomain.NoEmpty (d : NSDomain) : Prop :=
  ∀ cmd ns, d.lookup cmd = some ns → NSNodeSet.size ns ≠ 0

theorem NSDomain.NoEmpty.insert (h : NSDomain.NoEmpty d) (cmd)
    (hns : NSNodeSet.size ns ≠ 0) : NSDomain.NoEmpty (d.insert cmd ns) := by
  intro cmd' ns' hlookup
  by_cases heq : cmd' = cmd
  · rw [heq, AList.lookup_insert] at hlookup
    obtain rfl := Option.some.inj hlookup
    exact hns
  · rw [AList.lookup_insert_ne heq] at hlookup
    exact h cmd' ns' hlookup

theorem NSDomain.NoEmpty.add (h : NSDomain.NoEmpty d) (cmd info) : NSDomain.NoEmpty
    (NSDomain.add d cmd info) := by
  have hsize : ∀ ns, NSNodeSet.size (NSNodeSet.add ns info) ≠ 0 := by
    intro ns hzero
    have hnone := (NSNodeSet.size_eq_zero_iff _).mp hzero info.id
    rw [NSNodeSet.lookup_add, if_pos rfl] at hnone
    cases hnone
  unfold NSDomain.add
  split
  · exact h.insert cmd (hsize ∅)
  · exact h.insert cmd (hsize _)

theorem NSDomain.NoEmpty.del (h : NSDomain.NoEmpty d) (cmd id) : NSDomain.NoEmpty
    (NSDomain.del d cmd id) := by
  unfold NSDomain.del
  split
  · exact h
  · dsimp only
    split
    · intro cmd' ns' hlookup
      have hne : cmd' ≠ cmd := by
        rintro rfl
        rw [AList.lookup_erase] at hlookup
        cases hlookup
      rw [AList.lookup_erase_ne hne] at hlookup
      exact h cmd' ns' hlookup
    · exact h.insert cmd ‹_›

end Helens.NS
