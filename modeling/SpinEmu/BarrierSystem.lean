import SpinEmu.BarrierRoutes
import SpinEmu.Lib.Machine

/-! The barrier as a system: the application cores of a square board run `rts_init`,
`spin1_set_core_map` and `barrier_wait`, their controller threads run `read_mc`, and
the dispatcher runs its rounds. Waiting is a step that is not enabled; no wait times
out. -/
namespace SpinEmu
open Dispatcher

abbrev clearLck : Nat := 0
abbrev rtrInitLck : Nat := 0xad
abbrev rdygoLck : Nat := 0xbe

def barrierKeys : List (BitVec 32) := [goKey, rdygoKey, rdy1Key, rdy2Key]

/-- The entry matches no key of the barrier. -/
def SpinEmuRoute.sparesBarrier (e : SpinEmuRoute) : Bool := barrierKeys.all fun key => !e.matches key

/-- Where the program of a core stands. -/
inductive Pc where
  /-- `rts_init`, before `lock_try`. -/
  | lockTry
  | sendRdy1Route
  | initRdy1Cnt
  | initRdy2Cnt
  | releaseRouter
  | waitRouter
  /-- `spin1_set_core_map`; then the entries that `barrier_setup` has yet to send. -/
  | setCoreMap
  | sendRoutes (packets : List SpinEmuRoutePacket)
  /-- `spin1_start`, which calls `barrier_wait` when there are several cores. -/
  | start
  | barrierWait
  | sendRdygo
  | waitReady
  | sendGo
  | waitRdygo
  | sendRdy2
  | waitLock
  | sendRdy1
  | waitGo
  /-- `barrier_wait` has returned. -/
  | left
  /-- `spin1_start` goes on without the barrier. -/
  | alone
  deriving DecidableEq, Repr

/-- The core has called `barrier_wait`. -/
def Pc.entered : Pc → Bool
  | .barrierWait | .sendRdygo | .waitReady | .sendGo | .waitRdygo | .sendRdy2 | .waitLock
  | .sendRdy1 | .waitGo | .left => true
  | _ => false

/-- The variables of an application process that the barrier uses. -/
structure Core where
  pc : Pc := .lockTry
  rootAp : Bool := false
  ncores : BitVec 32 := 1
  vars : BarrierVars := {}
  barrierRdy1Cnt : BitVec 32 := 0
  barrierRdy2Cnt : BitVec 32 := 0
  barrierRdygo : Bool := false
  barrierGo : Bool := false
  deriving DecidableEq, Repr

/-- A datagram from a core to the dispatcher. -/
inductive Datagram where
  | mc (m : SpinEmuMc)
  | route (p : SpinEmuRoutePacket)
  deriving DecidableEq, Repr

/-- The next statement of a core: its variables, who holds the chip's lock file, the
chip's lock word, and what it sends. -/
structure Move where
  core : Core
  holder : Option Nat
  lock : Nat
  out : List Datagram

/-- `spin1_send_mc_packet` with `NO_PAYLOAD`. -/
def barrierPacket (key : BitVec 32) : Datagram := .mc ⟨key, 0, 0⟩

/-- `ncores`, counted by the two loops of `spin1_set_core_map`. -/
def countCores (chips : BitVec 32) (coreMap : Nat → BitVec 32) : BitVec 32 :=
  (List.range chips.toNat).foldl (fun nc i =>
    (List.range' 1 (numCpus - 1)).foldl (fun nc j =>
      if testBit (coreMap i) j then nc + 1 else nc) nc) 0

/-- `read_mc` on a packet; packets of other keys become events of the application. -/
def readMc (m : SpinEmuMc) (me : Core) : Core :=
  if m.key = rdygoKey then { me with barrierRdygo := true }
  else if m.key = goKey then { me with barrierGo := true }
  else if m.key = rdy1Key then { me with barrierRdy1Cnt := me.barrierRdy1Cnt + 1 }
  else if m.key = rdy2Key then { me with barrierRdy2Cnt := me.barrierRdy2Cnt + 1 }
  else me

section Board
variable (k : Nat) (past : Nat → BitVec 32) (coreMap : Nat → BitVec 32)

/-- One statement of core `i` of chip `c`. -/
def coreMove (c i : Nat) (me : Core) (holder : Option Nat) (lock : Nat) : Option Move :=
  match me.pc with
  | .lockTry =>
    match holder with
    | none => some ⟨{ me with rootAp := true, pc := .sendRdy1Route }, some i, lock, []⟩
    | some _ => some ⟨{ me with rootAp := false, pc := .waitRouter }, holder, lock, []⟩
  | .sendRdy1Route =>
    some ⟨{ me with pc := .initRdy1Cnt }, holder, lock, [.route (rdy1Packet past i)]⟩
  | .initRdy1Cnt => some ⟨{ me with barrierRdy1Cnt := 1, pc := .initRdy2Cnt }, holder, lock, []⟩
  | .initRdy2Cnt => some ⟨{ me with barrierRdy2Cnt := 1, pc := .releaseRouter }, holder, lock, []⟩
  | .releaseRouter => some ⟨{ me with pc := .setCoreMap }, holder, rtrInitLck, []⟩
  | .waitRouter =>
    if lock < rtrInitLck then none else some ⟨{ me with pc := .setCoreMap }, holder, lock, []⟩
  | .setCoreMap =>
    let ncores := countCores (squareChips k) coreMap
    if ncores > 1 && me.rootAp then
      (barrierSetup (square k) past (squareChips k) coreMap c i me.vars).map fun (vars, packets) =>
        ⟨{ me with ncores := ncores, vars := vars, pc := .sendRoutes packets }, holder, lock, []⟩
    else some ⟨{ me with ncores := ncores, pc := .start }, holder, lock, []⟩
  | .sendRoutes [] => some ⟨{ me with pc := .start }, holder, lock, []⟩
  | .sendRoutes (p :: rest) =>
    some ⟨{ me with pc := .sendRoutes rest }, holder, lock, [.route p]⟩
  | .start =>
    some ⟨{ me with pc := if me.ncores > 1 then .barrierWait else .alone }, holder, lock, []⟩
  | .barrierWait =>
    if me.rootAp then
      let next := if me.vars.rootChip then .sendRdygo else .waitRdygo
      some ⟨{ me with pc := next }, holder, rdygoLck, []⟩
    else some ⟨{ me with pc := .waitLock }, holder, lock, []⟩
  | .sendRdygo => some ⟨{ me with pc := .waitReady }, holder, lock, [barrierPacket rdygoKey]⟩
  | .waitReady =>
    if me.barrierRdy1Cnt < me.vars.myNcores || me.barrierRdy2Cnt < me.vars.nchips then none
    else some ⟨{ me with pc := .sendGo }, holder, lock, []⟩
  | .sendGo => some ⟨{ me with pc := .waitGo }, holder, lock, [barrierPacket goKey]⟩
  | .waitRdygo =>
    if me.barrierRdy1Cnt < me.vars.myNcores || !me.barrierRdygo then none
    else some ⟨{ me with pc := .sendRdy2 }, holder, lock, []⟩
  | .sendRdy2 => some ⟨{ me with pc := .waitGo }, holder, lock, [barrierPacket rdy2Key]⟩
  | .waitLock =>
    if lock < rdygoLck then none else some ⟨{ me with pc := .sendRdy1 }, holder, lock, []⟩
  | .sendRdy1 => some ⟨{ me with pc := .waitGo }, holder, lock, [barrierPacket rdy1Key]⟩
  | .waitGo => if me.barrierGo then some ⟨{ me with pc := .left }, holder, lock, []⟩ else none
  | .left => none
  | .alone => none

/-- The sockets of the board in the order of the dispatcher's loops. -/
def scanOrder : List (Nat × Nat) :=
  (List.range (square k).numChips).flatMap fun c => (List.range numCpus).map (c, ·)

/-- The core queues in the order of `flush_mc_queues`. -/
def coreQueues : List (Nat × Nat) :=
  (List.range (square k).numChips).flatMap fun c => (List.range' 1 (numCpus - 1)).map (c, ·)

/-- Where the dispatcher stands in its round: the sockets it has yet to drain, the
test of `mc_pending`, the chip queues and the core queues it has yet to drain. -/
inductive Round where
  | scan (sockets : List (Nat × Nat))
  | test
  | route (chips : List Nat)
  | send (cores : List (Nat × Nat))
  deriving DecidableEq, Repr

structure System where
  core : Nat × Nat → Core
  holder : Nat → Option Nat
  lock : Nat → Nat
  up : Nat × Nat → List Datagram
  down : Nat × Nat → List SpinEmuMc
  dispatcher : Dispatcher SpinEmuMc
  round : Round

/-- What happens next: a core's program or its controller thread goes on, the root
core resends RDYGO, the dispatcher goes on, an application sends a packet or an entry
of its own, a full socket refuses a packet. -/
inductive Action where
  | run (v : Nat × Nat)
  | read (v : Nat × Nat)
  | resend (v : Nat × Nat)
  | dispatch
  | appPacket (v : Nat × Nat) (m : SpinEmuMc)
  | appRoute (v : Nat × Nat) (p : SpinEmuRoutePacket)
  | loseUp (v : Nat × Nat) (n : Nat)
  | loseDown (v : Nat × Nat) (n : Nat)
  deriving DecidableEq, Repr

/-- The entry that the application sets, if it sets one, matches no key of the barrier. -/
def Action.sparesBarrier : Action → Bool
  | .appRoute _ p => p.entry.sparesBarrier
  | _ => true

/-- The cores that run the application. -/
def active (v : Nat × Nat) : Bool := v.1 < (square k).numChips && runs coreMap v.1 v.2

/-- An entry of the application, at an index that the barrier does not use. -/
def appEntry (p : SpinEmuRoutePacket) : Bool := 3 < p.index && p.index < numRoutes

namespace System

def initial : System where
  core _ := {}
  holder _ := none
  lock _ := clearLck
  up _ := []
  down _ := []
  dispatcher := idleDispatcher
  round := .scan (scanOrder k)

def send (s : System) (v : Nat × Nat) (out : List Datagram) : System :=
  { s with up := Function.update s.up v (s.up v ++ out) }

def move (s : System) (v : Nat × Nat) (m : Move) : System :=
  { s.send v m.out with
    core := Function.update s.core v m.core
    holder := Function.update s.holder v.1 m.holder
    lock := Function.update s.lock v.1 m.lock }

/-- The packets among some calls that go to the socket of core `v`. -/
def sentTo (v : Nat × Nat) (calls : List (McEvent SpinEmuMc)) : List SpinEmuMc :=
  calls.filterMap fun
    | .sent c i m => if (c, i) = v then some m else none
    | _ => none

/-- The dispatcher has done something; its trace holds the calls it made. -/
def deliver (s : System) (d : Dispatcher SpinEmuMc) : System :=
  { s with dispatcher := d, down := fun v => s.down v ++ sentTo v d.trace }

/-- The dispatcher before its next statement, with an empty trace. -/
def fresh (s : System) : Dispatcher SpinEmuMc := { s.dispatcher with trace := [] }

def dispatch (s : System) : Option System :=
  match s.round with
  | .scan [] => some { s with dispatcher := s.fresh, round := .test }
  | .scan (v :: rest) =>
    match s.up v with
    | [] => some { s with dispatcher := s.fresh, round := .scan rest }
    | .mc m :: more =>
      (dispatchMc v.1 m s.fresh).toOption.map fun d =>
        { s with up := Function.update s.up v more, dispatcher := d }
    | .route p :: more =>
      (storeRoute v.1 p.index p.entry s.fresh).map fun d =>
        { s with up := Function.update s.up v more, dispatcher := d }
  | .test =>
    if s.dispatcher.mcPending then
      some { s with
        dispatcher := { s.fresh with mcPending := false }
        round := .route (List.range (square k).numChips) }
    else some { s with dispatcher := s.fresh, round := .scan (scanOrder k) }
  | .route [] => some { s with dispatcher := s.fresh, round := .send (coreQueues k) }
  | .route (c :: rest) =>
    if (s.dispatcher.mcQueue c 0).len ≠ 0 then
      (routeFront (square k) c s.fresh).toOption.map s.deliver
    else some { s with dispatcher := s.fresh, round := .route rest }
  | .send [] => some { s with dispatcher := s.fresh, round := .test }
  | .send (v :: rest) =>
    if (s.dispatcher.mcQueue v.1 v.2).len ≠ 0 then
      (sendFront v.1 v.2 s.fresh).toOption.map s.deliver
    else some { s with dispatcher := s.fresh, round := .send rest }

def step (s : System) : Action → Option System
  | .run v =>
    if active k coreMap v then
      (coreMove k past coreMap v.1 v.2 (s.core v) (s.holder v.1) (s.lock v.1)).map (s.move v)
    else none
  | .read v =>
    match active k coreMap v, s.down v with
    | true, m :: rest => some { s with
        down := Function.update s.down v rest
        core := Function.update s.core v (readMc m (s.core v)) }
    | _, _ => none
  | .resend v =>
    if active k coreMap v && (s.core v).pc = .waitReady then some (s.send v [barrierPacket rdygoKey])
    else none
  | .dispatch => s.dispatch k
  | .appPacket v m =>
    if active k coreMap v && !barrierKeys.contains m.key then some (s.send v [.mc m]) else none
  | .appRoute v p =>
    if active k coreMap v && appEntry p then some (s.send v [.route p]) else none
  | .loseUp v n =>
    match (s.up v)[n]? with
    | some (.mc _) => some { s with up := Function.update s.up v ((s.up v).eraseIdx n) }
    | _ => none
  | .loseDown v n => some { s with down := Function.update s.down v ((s.down v).eraseIdx n) }

end System
end Board
end SpinEmu
