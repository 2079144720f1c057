import Helens.Lib.Runs

/-! The two views of `O_NONBLOCK`: the kernel's flags of the open descriptors, and what the user of
the hooked calls of `hook.cc` has asked for, which `FdCtx` remembers. Which requests of `F_SETFL`
the kernel refuses is a parameter. -/

namespace Helens.Hook

open Lib.Runs List Function

abbrev Flags := BitVec 32

def oNonblock : Flags := 0x800

def sockNonblock : BitVec 32 := 0x800

def nonblock (flags : Flags) : Bool := flags &&& oNonblock ≠ 0

/-! ## The kernel -/

abbrev Kernel := Nat → Option Flags

/-- The flags that `F_SETFL` changes: `O_APPEND`, `O_NONBLOCK`, `O_ASYNC`, `O_DIRECT` and
`O_NOATIME`. -/
def setflMask : Flags := 0x46c00

def fcntlSetfl (refuses : Flags → Flags → Bool) (fd : Nat) (arg : Flags) (k : Kernel) :
    Bool × Kernel :=
  match k fd with
  | none => (false, k)
  | some flags =>
    if refuses flags arg then (false, k)
    else (true, Function.update k fd (some ((flags &&& ~~~setflMask) ||| (arg &&& setflMask))))

def ioctlFionbio (fd : Nat) (value : BitVec 32) (k : Kernel) : Bool × Kernel :=
  match k fd with
  | none => (false, k)
  | some flags =>
    (true, Function.update k fd
      (some (if value ≠ 0 then flags ||| oNonblock else flags &&& ~~~oNonblock)))

def socketFlags (type : BitVec 32) : Flags := 2 ||| (type &&& sockNonblock)

/-! ## `fd_manager.cc` -/

structure FdCtx where
  isInit : Bool
  isSocket : Bool
  sysNonblock : Bool
  userNonblock : Bool
  isClosed : Bool

/-- The constructor and `FdCtx::init`. `stat` is what `fstat` says: nothing, or whether the
descriptor is a socket. -/
def FdCtx.init (refuses : Flags → Flags → Bool) (stat : Option Bool) (fd : Nat) (k : Kernel) :
    FdCtx × Kernel :=
  let isSocket := stat.getD false
  let k' :=
    if isSocket then
      -- -1 for a descriptor that is not open
      let flags := (k fd).getD (-1)
      if flags &&& oNonblock = 0 then (fcntlSetfl refuses fd (flags ||| oNonblock) k).2 else k
    else k
  (⟨stat.isSome, isSocket, isSocket, false, false⟩, k')

abbrev FdManager := List (Option FdCtx)

def FdManager.new : FdManager := List.replicate 64 none

def FdManager.get (fd : Nat) (datas : FdManager) : Option FdCtx := (datas[fd]?).join

def FdManager.put (fd : Nat) (ctx : FdCtx) (datas : FdManager) : FdManager :=
  (datas ++ List.replicate (if datas.length ≤ fd then fd * 3 / 2 - datas.length else 0) none).set
    fd (some ctx)

def FdManager.modify (fd : Nat) (ctx : FdCtx) (datas : FdManager) : FdManager :=
  datas.set fd (some ctx)

def FdManager.del (fd : Nat) (datas : FdManager) : FdManager := datas.set fd none

/-! ## `hook.cc` -/

/-- The process, with the choice that the user made last for each descriptor. -/
structure Process where
  kernel : Kernel
  datas : FdManager
  choice : Nat → Option Bool

variable (refuses : Flags → Flags → Bool)

def autoCreate (fd : Nat) (p : Process) : Process :=
  match p.datas.get fd with
  | some _ => p
  | none =>
    let (ctx, kernel) := FdCtx.init refuses (some true) fd p.kernel
    { p with kernel, datas := p.datas.put fd ctx }

def socket (hookEnable : Bool) (fd : Nat) (type : BitVec 32) (p : Process) : Process :=
  let p := { p with
    kernel := Function.update p.kernel fd (some (socketFlags type))
    choice := Function.update p.choice fd (some (type &&& sockNonblock ≠ 0)) }
  if !hookEnable then p else autoCreate refuses fd p

def managed (fd : Nat) (datas : FdManager) : Option FdCtx :=
  match datas.get fd with
  | none => none
  | some ctx => if ctx.isClosed || !ctx.isSocket then none else some ctx

/-- `fcntl(fd, F_SETFL, arg)`. The choice is the user's, whether the kernel takes it or not. -/
def setfl (fd : Nat) (arg : Flags) (p : Process) : Bool × Process :=
  let choice := Function.update p.choice fd (some (nonblock arg))
  match managed fd p.datas with
  | none =>
    let (ok, kernel) := fcntlSetfl refuses fd arg p.kernel
    (ok, { p with kernel, choice })
  | some ctx =>
    let datas := p.datas.modify fd { ctx with userNonblock := nonblock arg }
    let arg := if ctx.sysNonblock then arg ||| oNonblock else arg &&& ~~~oNonblock
    let (ok, kernel) := fcntlSetfl refuses fd arg p.kernel
    (ok, { kernel, datas, choice })

/-- `fcntl(fd, F_GETFL)`, which for a descriptor that is not open takes the bits of -1. -/
def getfl (fd : Nat) (p : Process) : Flags :=
  let arg := (p.kernel fd).getD (-1)
  match managed fd p.datas with
  | none => arg
  | some ctx => if ctx.userNonblock then arg ||| oNonblock else arg &&& ~~~oNonblock

def fionbio (fd : Nat) (value : BitVec 32) (p : Process) : Bool × Process :=
  let choice := Function.update p.choice fd (some (value ≠ 0))
  let (ok, kernel) := ioctlFionbio fd value p.kernel
  match managed fd p.datas with
  | none => (ok, { p with kernel, choice })
  | some ctx =>
    let datas := p.datas.modify fd { ctx with userNonblock := value ≠ 0 }
    (ok, { kernel, datas, choice })

def close (hookEnable : Bool) (fd : Nat) (p : Process) : Process :=
  let kernel := Function.update p.kernel fd none
  if !hookEnable then { p with kernel }
  else { p with kernel, datas := p.datas.del fd }

/-! ## Runs -/

inductive Action
  | socket (fd : Nat) (type : BitVec 32)
  | setfl (fd : Nat) (arg : Flags)
  | fionbio (fd : Nat) (value : BitVec 32)
  | close (fd : Nat)

/-- The kernel answers `socket` with a descriptor that is not open. -/
def exec : Action → Process → Except Empty Process
  | .socket fd type, p =>
    if (p.kernel fd).isSome then .ok p else .ok (socket refuses true fd type p)
  | .setfl fd arg, p => .ok (setfl refuses fd arg p).2
  | .fionbio fd value, p => .ok (fionbio fd value p).2
  | .close fd, p => .ok (close true fd p)

def Process.init : Process := ⟨fun _ => none, FdManager.new, fun _ => none⟩

/-- The kernel has the flag for every managed descriptor, and the user is told of the choice
they made last. -/
def Faithful (p : Process) : Prop :=
  ∀ fd ctx, p.datas.get fd = some ctx → ∃ flags choice,
    p.kernel fd = some flags ∧ nonblock flags = true ∧
    p.choice fd = some choice ∧ nonblock (getfl fd p) = choice

structure Stands (p : Process) (fd : Nat) (ctx : FdCtx) : Prop where
  socket : ctx.isSocket = true
  sys : ctx.sysNonblock = true
  not_closed : ctx.isClosed = false
  kernel : ∃ flags, p.kernel fd = some flags ∧ nonblock flags = true
  choice : p.choice fd = some ctx.userNonblock

structure Inv (p : Process) : Prop where
  room : 2 ≤ p.datas.length
  stands : ∀ fd ctx, p.datas.get fd = some ctx → Stands p fd ctx

/-! ## The flag -/

theorem nonblock_or (flags) : nonblock (flags ||| oNonblock) = true := by
  have hself : (flags ||| oNonblock) &&& oNonblock = oNonblock := by grind
  rw [nonblock, hself]
  decide

theorem nonblock_and_not (flags) : nonblock (flags &&& ~~~oNonblock) = false := by
  have hnone : (flags &&& ~~~oNonblock) &&& oNonblock = 0 := by simp [BitVec.and_assoc]
  rw [nonblock, hnone]
  decide

theorem nonblock_masked (flags arg) :
    nonblock ((flags &&& ~~~setflMask) ||| (arg &&& setflMask)) = nonblock arg := by
  have harg : ((flags &&& ~~~setflMask) ||| (arg &&& setflMask)) &&& oNonblock =
      arg &&& oNonblock := by
    rw [BitVec.and_or_distrib_right, BitVec.and_assoc, BitVec.and_assoc,
      show ~~~setflMask &&& oNonblock = 0 by decide,
      show setflMask &&& oNonblock = oNonblock by decide]
    simp
  rw [nonblock, nonblock, harg]

/-! ## The tables -/

variable {datas : FdManager} {fd : Nat} {p : Process}

theorem get_set (hlt : fd < datas.length) (entry fd') : FdManager.get fd' (datas.set fd entry) =
      if fd' = fd then entry else datas.get fd' := by
  unfold FdManager.get
  by_cases hfd : fd' = fd
  · rw [if_pos hfd, hfd, getElem?_set_self hlt]
    rfl
  · rw [if_neg hfd, getElem?_set_ne (Ne.symm hfd)]

theorem lt_length_of_get (h : datas.get fd = some ctx) : fd < datas.length := by
  by_contra hge
  rw [FdManager.get, getElem?_eq_none (Nat.not_lt.mp hge)] at h
  cases h

theorem get_put (hroom : 2 ≤ datas.length) (fd ctx fd') :
    (datas.put fd ctx).get fd' = if fd' = fd then some ctx else datas.get fd' := by
  have hlt : fd < (datas ++ replicate
      (if datas.length ≤ fd then fd * 3 / 2 - datas.length else 0) none).length := by
    rw [length_append, length_replicate]
    split <;> omega
  rw [FdManager.put, get_set hlt]
  congr 1
  -- what `resize` adds is empty
  unfold FdManager.get
  by_cases hin : fd' < datas.length
  · rw [getElem?_append_left hin]
  · rw [getElem?_append_right (Nat.not_lt.mp hin), getElem?_replicate,
      getElem?_eq_none (Nat.not_lt.mp hin)]
    generalize (if datas.length ≤ fd then fd * 3 / 2 - datas.length else 0) = added
    split <;> rfl

theorem length_put (datas : FdManager) (fd ctx) : datas.length ≤ (datas.put fd ctx).length := by
  rw [FdManager.put, length_set, length_append]
  exact Nat.le_add_right _ _

theorem get_del (datas : FdManager) (fd fd') :
    (datas.del fd).get fd' = if fd' = fd then none else datas.get fd' := by
  by_cases hlt : fd < datas.length
  · exact get_set hlt none fd'
  · rw [FdManager.del, set_eq_of_length_le (Nat.not_lt.mp hlt)]
    split
    · next hfd =>
      rw [hfd, FdManager.get, getElem?_eq_none (Nat.not_lt.mp hlt)]
      rfl
    · rfl

/-- `F_SETFL` touches one descriptor, and leaves its flag as it was or as it is asked for. -/
theorem fcntlSetfl_spec (fd arg k) :
    (∀ fd', fd' ≠ fd → (fcntlSetfl refuses fd arg k).2 fd' = k fd') ∧
    ∀ flags, k fd = some flags → ∃ flags', (fcntlSetfl refuses fd arg k).2 fd = some flags' ∧
      (refuses flags arg = true ∧ flags' = flags ∨ nonblock flags' = nonblock arg) := by
  unfold fcntlSetfl
  cases hk : k fd with
  | none => exact ⟨fun _ _ => rfl, nofun⟩
  | some flags =>
    dsimp only
    by_cases hrefused : refuses flags arg = true
    · rw [if_pos hrefused]
      refine ⟨fun _ _ => rfl, ?_⟩
      rintro _ ⟨⟩
      exact ⟨flags, hk, .inl ⟨hrefused, rfl⟩⟩
    · rw [if_neg hrefused]
      refine ⟨fun fd' hfd => update_of_ne hfd _ _, ?_⟩
      rintro _ ⟨⟩
      exact ⟨_, update_self .., .inr (nonblock_masked flags arg)⟩

variable {refuses}

/-! ## The steps -/

theorem Stands.managed (h : Stands p fd ctx)
    (hget : p.datas.get fd = some ctx) : managed fd p.datas = some ctx := by
  rw [Hook.managed, hget]
  simp [h.not_closed, h.socket]

/-- A call that touches one descriptor, where the new entry of its context stands for what the
descriptor then has. -/
theorem Inv.of_local {p p' : Process} (hp : Inv p) (fd entry)
    (hroom : p.datas.length ≤ p'.datas.length)
    (hdatas : ∀ fd', p'.datas.get fd' = if fd' = fd then entry else p.datas.get fd')
    (hkernel : ∀ fd', fd' ≠ fd → p'.kernel fd' = p.kernel fd')
    (hchoice : ∀ fd', fd' ≠ fd → p'.choice fd' = p.choice fd')
    (hentry : ∀ ctx, entry = some ctx → Stands p' fd ctx) : Inv p' := by
  refine ⟨Nat.le_trans hp.room hroom, ?_⟩
  intro fd' ctx hctx
  rw [hdatas] at hctx
  by_cases hfd : fd' = fd
  · rw [if_pos hfd] at hctx
    rw [hfd]
    exact hentry ctx hctx
  · rw [if_neg hfd] at hctx
    obtain ⟨hsocket, hsys, hopen, hflags, hchosen⟩ := hp.stands fd' ctx hctx
    refine ⟨hsocket, hsys, hopen, ?_, ?_⟩
    · rw [hkernel fd' hfd]
      exact hflags
    · rw [hchoice fd' hfd]
      exact hchosen

theorem get_self_none (h : datas.get fd = none) (fd') :
    datas.get fd' = if fd' = fd then none else datas.get fd' := by
  split
  · next hfd => rw [hfd, h]
  · rfl

theorem Inv.setfl (hp : Inv p) (fd arg) : Inv (setfl refuses fd arg p).2 := by
  have hchoice : ∀ fd', fd' ≠ fd →
      update p.choice fd (some (nonblock arg)) fd' = p.choice fd' :=
    fun fd' hfd => update_of_ne hfd _ _
  unfold Hook.setfl
  dsimp only
  cases hget : p.datas.get fd with
  | none =>
    have hmanaged : managed fd p.datas = none := by rw [managed, hget]
    rw [hmanaged]
    exact hp.of_local fd none (Nat.le_refl _) (get_self_none hget)
      (fcntlSetfl_spec refuses fd arg p.kernel).1 hchoice nofun
  | some ctx =>
    have hstands := hp.stands fd ctx hget
    obtain ⟨flags, hkernel, hflags⟩ := hstands.kernel
    rw [hstands.managed hget]
    dsimp only
    rw [if_pos hstands.sys]
    have hspec := fcntlSetfl_spec refuses fd (arg ||| oNonblock) p.kernel
    obtain ⟨flags', hkernel', hflags'⟩ := hspec.2 flags hkernel
    apply hp.of_local fd _ (Nat.le_of_eq length_set.symm)
      (get_set (lt_length_of_get hget) _) hspec.1 hchoice
    rintro _ ⟨⟩
    refine ⟨hstands.socket, hstands.sys, hstands.not_closed, ⟨flags', hkernel', ?_⟩,
      update_self ..⟩
    rcases hflags' with ⟨-, rfl⟩ | hflags'
    · exact hflags
    · exact hflags'.trans (nonblock_or arg)

theorem Inv.fionbio (hp : Inv p) (fd)
    (hvalue : value ≠ 0 ∨ p.datas.get fd = none) : Inv (fionbio fd value p).2 := by
  have hchoice : ∀ fd', fd' ≠ fd →
      update p.choice fd (some (decide (value ≠ 0))) fd' = p.choice fd' :=
    fun fd' hfd => update_of_ne hfd _ _
  have hothers : ∀ fd', fd' ≠ fd → (ioctlFionbio fd value p.kernel).2 fd' = p.kernel fd' := by
    intro fd' hfd
    unfold ioctlFionbio
    split
    · rfl
    · exact update_of_ne hfd _ _
  unfold Hook.fionbio
  dsimp only
  cases hget : p.datas.get fd with
  | none =>
    have hmanaged : managed fd p.datas = none := by rw [managed, hget]
    rw [hmanaged]
    exact hp.of_local fd none (Nat.le_refl _) (get_self_none hget) hothers hchoice nofun
  | some ctx =>
    have hstands := hp.stands fd ctx hget
    obtain ⟨flags, hkernel, hflags⟩ := hstands.kernel
    have hset : value ≠ 0 := by
      rcases hvalue with hvalue | hnone
      · exact hvalue
      · rw [hget] at hnone
        cases hnone
    rw [hstands.managed hget]
    have hself : (ioctlFionbio fd value p.kernel).2 fd = some (flags ||| oNonblock) := by
      rw [ioctlFionbio, hkernel]
      dsimp only
      rw [update_self, if_pos hset]
    apply hp.of_local fd _ (Nat.le_of_eq length_set.symm)
      (get_set (lt_length_of_get hget) _) hothers hchoice
    rintro _ ⟨⟩
    exact ⟨hstands.socket, hstands.sys, hstands.not_closed, ⟨_, hself, nonblock_or flags⟩,
      update_self ..⟩

theorem init_spec (hadds : ∀ flags, refuses flags (flags ||| oNonblock) = false)
    (hk : k fd = some flags) :
    (FdCtx.init refuses (some true) fd k).1 = ⟨true, true, true, false, false⟩ ∧
    (∀ fd', fd' ≠ fd → (FdCtx.init refuses (some true) fd k).2 fd' = k fd') ∧
    ∃ flags', (FdCtx.init refuses (some true) fd k).2 fd = some flags' ∧
      nonblock flags' = true := by
  have hinit : (FdCtx.init refuses (some true) fd k).2 =
      if flags &&& oNonblock = 0 then (fcntlSetfl refuses fd (flags ||| oNonblock) k).2
      else k := by
    simp [FdCtx.init, hk]
  refine ⟨rfl, ?_, ?_⟩
  · intro fd' hfd
    rw [hinit]
    split
    · exact (fcntlSetfl_spec refuses fd _ k).1 fd' hfd
    · rfl
  · rw [hinit]
    split
    · obtain ⟨flags', hkernel, hflags⟩ := (fcntlSetfl_spec refuses fd
        (flags ||| oNonblock) k).2 flags hk
      refine ⟨flags', hkernel, ?_⟩
      rcases hflags with ⟨hrefused, -⟩ | hflags
      · rw [hadds] at hrefused
        cases hrefused
      · exact hflags.trans (nonblock_or flags)
    · next hflags => exact ⟨flags, hk, decide_eq_true hflags⟩

theorem Inv.socket (hadds : ∀ flags, refuses flags (flags ||| oNonblock) = false)
    (hp : Inv p) (hclosed : p.kernel fd = none)
    (htype : type &&& sockNonblock = 0) : Inv (socket refuses true fd type p) := by
  have hget : p.datas.get fd = none := by
    cases hget : p.datas.get fd with
    | none => rfl
    | some ctx =>
      obtain ⟨flags, hkernel, -⟩ := (hp.stands fd ctx hget).kernel
      rw [hclosed] at hkernel
      cases hkernel
  have hkernel : update p.kernel fd (some (socketFlags type)) fd =
      some (socketFlags type) := update_self ..
  obtain ⟨hctx, hothers, flags, hself, hflags⟩ := init_spec hadds hkernel
  have heq : Hook.socket refuses true fd type p =
      { kernel := (FdCtx.init refuses (some true) fd
          (update p.kernel fd (some (socketFlags type)))).2
        datas := p.datas.put fd ⟨true, true, true, false, false⟩
        choice := update p.choice fd (some false) } := by
    simp [Hook.socket, autoCreate, hget, hctx, htype]
  rw [heq]
  apply hp.of_local fd _ (length_put ..) (get_put hp.room fd _)
  · intro fd' hfd
    exact (hothers fd' hfd).trans (update_of_ne hfd _ _)
  · exact fun fd' hfd => update_of_ne hfd _ _
  · rintro _ ⟨⟩
    exact ⟨rfl, rfl, rfl, ⟨flags, hself, hflags⟩, update_self ..⟩

theorem Inv.close (hp : Inv p) (fd) : Inv (close true fd p) := by
  apply hp.of_local fd none (Nat.le_of_eq length_set.symm) (get_del p.datas fd)
  · exact fun fd' hfd => update_of_ne hfd _ _
  · exact fun _ _ => rfl
  · exact nofun

/-! ## Runs keep the views apart -/

/-- Sockets are created without `SOCK_NONBLOCK`, and `FIONBIO` is not used to ask for a
blocking socket. -/
def Fits (p : Process) : Action → Prop
  | .socket _ type => type &&& sockNonblock = 0
  | .fionbio fd value => value ≠ 0 ∨ p.datas.get fd = none
  | _ => True

instance (p : Process) : (a : Action) → Decidable (Fits p a)
  | .socket _ type => inferInstanceAs (Decidable (type &&& sockNonblock = 0))
  | .fionbio fd value => inferInstanceAs (Decidable (_ ∨ _))
  | .setfl .. => isTrue trivial
  | .close _ => isTrue trivial

theorem exec_inv (hadds : ∀ flags, refuses flags (flags ||| oNonblock) = false) (p a) (hp : Inv p)
    (ha : Fits p a) : Post Inv Never (exec refuses a p) := by
  cases a with
  | socket fd type =>
    rw [exec]
    split
    · exact hp
    · next hclosed =>
      rw [Option.not_isSome_iff_eq_none] at hclosed
      exact hp.socket hadds hclosed ha
  | setfl fd arg => exact hp.setfl fd arg
  | fionbio fd value => exact hp.fionbio fd ha
  | close fd => exact hp.close fd

theorem Inv.faithful (hp : Inv p) : Faithful p := by
  intro fd ctx hget
  have hstands := hp.stands fd ctx hget
  obtain ⟨flags, hkernel, hflags⟩ := hstands.kernel
  refine ⟨flags, ctx.userNonblock, hkernel, hflags, hstands.choice, ?_⟩
  rw [getfl, hkernel, hstands.managed hget]
  dsimp only [Option.getD_some]
  cases ctx.userNonblock with
  | true => exact nonblock_or flags
  | false => exact nonblock_and_not flags

/-- The kernel's flag stays set for every managed descriptor and the user sees their last choice,
where sockets are created without `SOCK_NONBLOCK` and `FIONBIO` is not called with 0. -/
theorem runs_faithful (refuses : Flags → Flags → Bool)
    (hadds : ∀ flags, refuses flags (flags ||| oNonblock) = false) (as : List Action)
    (has : Along (exec refuses) Fits as Process.init) :
    Post Faithful (fun _ => False) (run (exec refuses) as Process.init) := by
  have hinit : Inv Process.init := by
    refine ⟨by decide, ?_⟩
    intro fd ctx hget
    rw [FdManager.get, Process.init, FdManager.new, getElem?_replicate] at hget
    split at hget
    · cases hget
    · cases hget
  exact (post_run (exec_inv hadds) as _ has hinit).imp (fun p hp => hp.faithful)

def choices : List Action :=
  [.socket 7 1, .setfl 7 0x802, .setfl 7 2, .socket 70 2, .fionbio 70 1, .close 7, .socket 7 1,
    .setfl 70 0x402]

theorem choices_fit : Along (exec fun _ _ => false) Fits choices Process.init := by
  decide +kernel

theorem choices_faithful : Along (exec fun _ _ => false) Fits choices Process.init ∧
      Post Faithful (fun _ => False) (run (exec fun _ _ => false) choices Process.init) :=
  ⟨choices_fit, runs_faithful (fun _ _ => false) (fun _ => rfl) choices choices_fit⟩

/-- `FIONBIO` with 0 makes the kernel's descriptor block; and a socket created with
`SOCK_NONBLOCK` is reported as blocking. -/
theorem choices_unfaithful :
    (run (exec fun _ _ => false) [.socket 7 1, .fionbio 7 0] Process.init).map
        (fun p => (p.kernel 7).map nonblock) = .ok (some false) ∧
      (run (exec fun _ _ => false) [.socket 7 0x801] Process.init).map
        (fun p => (nonblock (getfl 7 p), p.choice 7)) = .ok (false, some true) := by
  decide +kernel

end Helens.Hook
