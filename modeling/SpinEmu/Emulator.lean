import SpinEmu.Wire
import SpinEmu.SdpCore
import SpinEmu.RunningCount

/-! The running emulator: the loop of `spin_emu_dispatcher` with all four kinds of
datagrams as bytes on its sockets, the applications of a square board in the barrier and
after it, and the hosts. Applications are started before; starting one anew is left out.
They send packets with keys of their own and set entries above those of the barrier. -/
namespace SpinEmu
open Dispatcher

/-- A datagram on a socket of a core. The request that an SDP message comes from is not in
the source. -/
structure Frame where
  bytes : List Byte
  request : Requester
  deriving DecidableEq, Repr

/-- What a datagram says. -/
inductive Packet where
  | mc (m : SpinEmuMc)
  | route (p : SpinEmuRoutePacket)
  | sdp (m : SdpMsg)
  | finished

namespace Frame

def ofMc (m : SpinEmuMc) : Frame := ⟨sendMcBytes m, 0, 0, 0⟩
def ofRoute (p : SpinEmuRoutePacket) : Frame := ⟨sendRouteBytes p, 0, 0, 0⟩
def ofSdp (stale : Nat → Byte) (m : SdpMsg) : Frame := ⟨sendSdpBytes stale m, m.request⟩
def ofFinished : Frame := ⟨sendFinishedBytes, 0, 0, 0⟩

def ofDatagram : Datagram → Frame
  | .mc m => ofMc m
  | .route p => ofRoute p

/-- The `switch` of `do_dispatch` with the checks of its handlers. The dispatcher dies of
anything else. -/
def upward (f : Frame) : Option Packet :=
  match f.bytes with
  | [] => none
  | type :: buf =>
    if type = spinEmuPacketMc then (dispatchMcBuf buf).map .mc
    else if type = spinEmuPacketSdp then
      if buf.length ≤ sdpMsgBytes then some (.sdp (sdpBuf buf f.request)) else none
    else if type = spinEmuPacketRoute then (storeRouteBuf buf).map .route
    else if type = spinEmuPacketFinished then some .finished
    else none

/-- The `switch` of `read_packets` with the checks of its handlers; `read_mc` takes a packet
out of its buffer as `dispatch_mc` does. -/
def downward (f : Frame) : Option Packet :=
  match f.bytes with
  | [] => none
  | type :: buf =>
    if type = spinEmuPacketMc then (dispatchMcBuf buf).map .mc
    else if type = spinEmuPacketSdp then
      if buf.length = sdpMsgBytes then some (.sdp (sdpBuf buf f.request)) else none
    else none

end Frame

/-- Where the loop of `spin_emu_dispatcher` stands: before the Ethernet socket, between
`do_dispatch` and the end of `flush_mc_queues`, or in `flush_sdp_queues` with the queues that
are left. -/
inductive Phase where
  | ether
  | round (r : Round)
  | flush (queues : List (Nat × Nat))
  deriving DecidableEq, Repr

structure Emulator where
  core : Nat × Nat → Core
  holder : Nat → Option Nat
  lock : Nat → Nat
  up : Nat × Nat → List Frame
  down : Nat × Nat → List Frame
  dispatcher : Dispatcher SpinEmuMc
  sdp : SdpDispatcher
  phase : Phase
  /-- The arguments of the calls of `queue_event` for `MC_PACKET_RECEIVED` on each core. The
  source has no such variable. -/
  events : Nat × Nat → List (BitVec 32 × BitVec 32)

/-- What happens next: a host sends a datagram, a core's program or its controller thread
goes on, an application sends, the dispatcher goes on, a full socket refuses a packet. -/
inductive EmulatorAction where
  | ether (stale : Nat → Byte) (g : EtherDatagram)
  | run (v : Nat × Nat)
  | resend (v : Nat × Nat)
  | read (v : Nat × Nat) (stale : Nat → Byte) (mem : BitVec 32 → Byte) (rawtime : BitVec 32)
  | sendMc (v : Nat × Nat) (key data load : BitVec 32)
  | setRoute (v : Nat × Nat) (p : SpinEmuRoutePacket)
  | sendSdp (v : Nat × Nat) (stale : Nat → Byte) (m : SdpMsg)
  | stop (v : Nat × Nat)
  | dispatch (stale : Nat → Byte)
  | loseUp (v : Nat × Nat) (n : Nat)
  | loseDown (v : Nat × Nat) (n : Nat)

/-- The packet of `spin1_send_mc_packet`. -/
def spin1SendMcPacket (key data load : BitVec 32) : SpinEmuMc := ⟨key, data, load.toInt⟩

/-- The calls of `queue_event` in `read_mc`. -/
def mcEvents (m : SpinEmuMc) : List (BitVec 32 × BitVec 32) :=
  if m.key ∈ barrierKeys then [] else [(m.key, m.payload)]

namespace Emulator

def initial (k : Nat) (sdp : SdpDispatcher) : Emulator where
  core _ := {}
  holder _ := none
  lock _ := clearLck
  up _ := []
  down _ := []
  dispatcher := idleDispatcher
  sdp := { sdp with initialised := true, board := square k, sdpQueue := fun _ _ => [] }
  phase := .ether
  events _ := []

section Steps
variable (k : Nat) (past : Nat → BitVec 32) (coreMap : Nat → BitVec 32)

def send (s : Emulator) (v : Nat × Nat) (out : List Frame) : Emulator :=
  { s with up := Function.update s.up v (s.up v ++ out) }

def move (s : Emulator) (v : Nat × Nat) (m : Move) : Emulator :=
  { s.send v (m.out.map Frame.ofDatagram) with
    core := Function.update s.core v m.core
    holder := Function.update s.holder v.1 m.holder
    lock := Function.update s.lock v.1 m.lock }

/-- The dispatcher has done something; its trace holds the calls it made. -/
def deliver (s : Emulator) (d : Dispatcher SpinEmuMc) : Emulator :=
  { s with
    dispatcher := d
    down := fun v => s.down v ++ (System.sentTo v d.trace).map Frame.ofMc }

def fresh (s : Emulator) : Dispatcher SpinEmuMc := { s.dispatcher with trace := [] }

/-- The handlers of `do_dispatch`. -/
def doDispatch (s : Emulator) (v : Nat × Nat) : Packet → Option Emulator
  | .mc m => (dispatchMc v.1 m s.fresh).toOption.map fun d => { s with dispatcher := d }
  | .route p =>
    (storeRoute v.1 p.index p.entry s.fresh).map fun d => { s with dispatcher := d }
  | .sdp m => (s.sdp.dispatchSdpOne m).map fun d => { s with sdp := d }
  | .finished => some { s with sdp := s.sdp.finished v.1 v.2 }

def dispatch (stale : Nat → Byte) (s : Emulator) : Option Emulator :=
  match s.phase with
  | .ether => some { s with phase := .round (.scan (scanOrder k)) }
  | .round (.scan []) => some { s with dispatcher := s.fresh, phase := .round .test }
  | .round (.scan (v :: rest)) =>
    match s.up v with
    | [] => some { s with dispatcher := s.fresh, phase := .round (.scan rest) }
    | f :: more => f.upward.bind ({ s with up := Function.update s.up v more }.doDispatch v)
  | .round .test =>
    if s.dispatcher.mcPending then
      some { s with
        dispatcher := { s.fresh with mcPending := false }
        phase := .round (.route (List.range (square k).numChips)) }
    else some { s with dispatcher := s.fresh, phase := .flush (scanOrder k) }
  | .round (.route []) =>
    some { s with dispatcher := s.fresh, phase := .round (.send (coreQueues k)) }
  | .round (.route (c :: rest)) =>
    if (s.dispatcher.mcQueue c 0).len ≠ 0 then
      (routeFront (square k) c s.fresh).toOption.map s.deliver
    else some { s with dispatcher := s.fresh, phase := .round (.route rest) }
  | .round (.send []) => some { s with dispatcher := s.fresh, phase := .round .test }
  | .round (.send (v :: rest)) =>
    if (s.dispatcher.mcQueue v.1 v.2).len ≠ 0 then
      (sendFront v.1 v.2 s.fresh).toOption.map s.deliver
    else some { s with dispatcher := s.fresh, phase := .round (.send rest) }
  | .flush [] => some { s with phase := .ether }
  | .flush (v :: rest) =>
    let (msgs, sdp) := s.sdp.flushSdpQueue v.1 v.2
    some { s with
      sdp
      down := Function.update s.down v (s.down v ++ msgs.map (Frame.ofSdp stale))
      phase := .flush rest }

/-- The handlers of `read_packets`. A core without an application does not wait in the
barrier; an `AS` message would replace the process. -/
def readPacket (s : Emulator) (v : Nat × Nat) (stale : Nat → Byte) (mem : BitVec 32 → Byte)
    (rawtime : BitVec 32) : Packet → Option Emulator
  | .mc m =>
    if active k coreMap v then
      some { s with
        core := Function.update s.core v (readMc m (s.core v))
        events := Function.update s.events v (s.events v ++ mcEvents m) }
    else some s
  | .sdp m =>
    if m.cmdRc = spinEmuPacketAs then none
    else do
      let chipID ← spin1GetChipId (square k) v.1
      return s.send v ((readSdp mem rawtime chipID v.2 m).toList.map (Frame.ofSdp stale))
  | .route _ => none
  | .finished => none

def step (s : Emulator) : EmulatorAction → Option Emulator
  | .ether stale g =>
    if s.phase = .ether then (s.sdp.receiveMsgFromEther stale g).map fun sdp => { s with sdp }
    else none
  | .run v =>
    if active k coreMap v then
      (coreMove k past coreMap v.1 v.2 (s.core v) (s.holder v.1) (s.lock v.1)).map (s.move v)
    else none
  | .resend v =>
    if active k coreMap v && (s.core v).pc = .waitReady then
      some (s.send v [.ofDatagram (barrierPacket rdygoKey)])
    else none
  | .read v stale mem rawtime =>
    match s.down v with
    | [] => none
    | f :: rest =>
      f.downward.bind
        ({ s with down := Function.update s.down v rest }.readPacket k coreMap v stale mem rawtime)
  | .sendMc v key data load =>
    if active k coreMap v && !barrierKeys.contains key then
      some (s.send v [.ofMc (spin1SendMcPacket key data load)])
    else none
  | .setRoute v p =>
    if active k coreMap v && appEntry p then some (s.send v [.ofRoute p]) else none
  | .sendSdp v stale m =>
    if active k coreMap v then some (s.send v [.ofSdp stale m]) else none
  | .stop v => if active k coreMap v then some (s.send v [.ofFinished]) else none
  | .dispatch stale => s.dispatch k stale
  | .loseUp v n =>
    match ((s.up v)[n]?).bind Frame.upward with
    | some (.mc _) | some (.sdp _) => some { s with up := Function.update s.up v ((s.up v).eraseIdx n) }
    | _ => none
  | .loseDown v n =>
    match ((s.down v)[n]?).bind Frame.downward with
    | some (.mc _) => some { s with down := Function.update s.down v ((s.down v).eraseIdx n) }
    | _ => none

/-- What the dispatcher can do: it goes on to the next socket or queue, or handles one
datagram or message. -/
inductive Dispatches (stale : Nat → Byte) (s : Emulator) : Emulator → Prop where
  | listened : s.phase = .ether →
      Dispatches stale s { s with phase := .round (.scan (scanOrder k)) }
  | scanned : s.phase = .round (.scan []) →
      Dispatches stale s { s with dispatcher := s.fresh, phase := .round .test }
  | scanEmpty {v rest} : s.phase = .round (.scan (v :: rest)) → s.up v = [] →
      Dispatches stale s { s with dispatcher := s.fresh, phase := .round (.scan rest) }
  | recvMc {v rest f more m d} : s.phase = .round (.scan (v :: rest)) → s.up v = f :: more →
      f.upward = some (.mc m) → (dispatchMc v.1 m s.fresh).toOption = some d →
      Dispatches stale s { s with up := Function.update s.up v more, dispatcher := d }
  | recvRoute {v rest f more p d} : s.phase = .round (.scan (v :: rest)) → s.up v = f :: more →
      f.upward = some (.route p) → storeRoute v.1 p.index p.entry s.fresh = some d →
      Dispatches stale s { s with up := Function.update s.up v more, dispatcher := d }
  | recvSdp {v rest f more m sdp} : s.phase = .round (.scan (v :: rest)) → s.up v = f :: more →
      f.upward = some (.sdp m) → s.sdp.dispatchSdpOne m = some sdp →
      Dispatches stale s { s with up := Function.update s.up v more, sdp }
  | recvFinished {v rest f more} : s.phase = .round (.scan (v :: rest)) → s.up v = f :: more →
      f.upward = some .finished → Dispatches stale s
        { s with up := Function.update s.up v more, sdp := s.sdp.finished v.1 v.2 }
  | pending : s.phase = .round .test → s.dispatcher.mcPending = true → Dispatches stale s
      { s with
        dispatcher := { s.fresh with mcPending := false }
        phase := .round (.route (List.range (square k).numChips)) }
  | quiet : s.phase = .round .test → s.dispatcher.mcPending ≠ true →
      Dispatches stale s { s with dispatcher := s.fresh, phase := .flush (scanOrder k) }
  | routed : s.phase = .round (.route []) →
      Dispatches stale s { s with dispatcher := s.fresh, phase := .round (.send (coreQueues k)) }
  | routeEmpty {c rest} : s.phase = .round (.route (c :: rest)) →
      ¬(s.dispatcher.mcQueue c 0).len ≠ 0 →
      Dispatches stale s { s with dispatcher := s.fresh, phase := .round (.route rest) }
  | route {c rest d} : s.phase = .round (.route (c :: rest)) →
      (s.dispatcher.mcQueue c 0).len ≠ 0 →
      (routeFront (square k) c s.fresh).toOption = some d → Dispatches stale s (s.deliver d)
  | sent : s.phase = .round (.send []) →
      Dispatches stale s { s with dispatcher := s.fresh, phase := .round .test }
  | sendEmpty {v rest} : s.phase = .round (.send (v :: rest)) →
      ¬(s.dispatcher.mcQueue v.1 v.2).len ≠ 0 →
      Dispatches stale s { s with dispatcher := s.fresh, phase := .round (.send rest) }
  | send {v rest d} : s.phase = .round (.send (v :: rest)) →
      (s.dispatcher.mcQueue v.1 v.2).len ≠ 0 →
      (sendFront v.1 v.2 s.fresh).toOption = some d → Dispatches stale s (s.deliver d)
  | flushed : s.phase = .flush [] → Dispatches stale s { s with phase := .ether }
  | flush {v rest} : s.phase = .flush (v :: rest) → Dispatches stale s
      { s with
        sdp := (s.sdp.flushSdpQueue v.1 v.2).2
        down := Function.update s.down v
          (s.down v ++ (s.sdp.flushSdpQueue v.1 v.2).1.map (Frame.ofSdp stale))
        phase := .flush rest }

/-- What a step can do. -/
inductive Acts (s : Emulator) : EmulatorAction → Emulator → Prop where
  | ether {stale g sdp} : s.sdp.receiveMsgFromEther stale g = some sdp →
      Acts s (.ether stale g) { s with sdp }
  | run {v m} : active k coreMap v = true →
      coreMove k past coreMap v.1 v.2 (s.core v) (s.holder v.1) (s.lock v.1) = some m →
      Acts s (.run v) (s.move v m)
  | resend {v} : (active k coreMap v && (s.core v).pc = .waitReady) = true →
      Acts s (.resend v) (s.send v [.ofDatagram (barrierPacket rdygoKey)])
  | takeMc {v stale mem rawtime f rest m} : active k coreMap v = true → s.down v = f :: rest →
      f.downward = some (.mc m) → Acts s (.read v stale mem rawtime) { s with
        down := Function.update s.down v rest
        core := Function.update s.core v (readMc m (s.core v))
        events := Function.update s.events v (s.events v ++ mcEvents m) }
  | skipMc {v stale mem rawtime f rest m} : s.down v = f :: rest → f.downward = some (.mc m) →
      Acts s (.read v stale mem rawtime) { s with down := Function.update s.down v rest }
  | takeSdp {v stale mem rawtime f rest m chipID} : s.down v = f :: rest →
      f.downward = some (.sdp m) → spin1GetChipId (square k) v.1 = some chipID →
      Acts s (.read v stale mem rawtime) ({ s with down := Function.update s.down v rest }.send v
        ((readSdp mem rawtime chipID v.2 m).toList.map (Frame.ofSdp stale)))
  | sendMc {v key data load} : (active k coreMap v && !barrierKeys.contains key) = true →
      Acts s (.sendMc v key data load) (s.send v [.ofMc (spin1SendMcPacket key data load)])
  | setRoute {v p} : (active k coreMap v && appEntry p) = true →
      Acts s (.setRoute v p) (s.send v [.ofRoute p])
  | sendSdp {v stale m} : Acts s (.sendSdp v stale m) (s.send v [.ofSdp stale m])
  | stop {v} : Acts s (.stop v) (s.send v [.ofFinished])
  | dispatch {stale t} : Dispatches k stale s t → Acts s (.dispatch stale) t
  | loseMcUp {v n f m} : (s.up v)[n]? = some f → f.upward = some (.mc m) →
      Acts s (.loseUp v n) { s with up := Function.update s.up v ((s.up v).eraseIdx n) }
  | loseSdpUp {v n f m} : (s.up v)[n]? = some f → f.upward = some (.sdp m) →
      Acts s (.loseUp v n) { s with up := Function.update s.up v ((s.up v).eraseIdx n) }
  | loseMcDown {v n f m} : (s.down v)[n]? = some f → f.downward = some (.mc m) →
      Acts s (.loseDown v n) { s with down := Function.update s.down v ((s.down v).eraseIdx n) }

end Steps

section Inversion
variable {k : Nat} {past coreMap : Nat → BitVec 32} {s t : Emulator} {a : EmulatorAction}

theorem dispatch_cases {stale : Nat → Byte} (step : s.dispatch k stale = some t) :
    Dispatches k stale s t := by
  unfold dispatch at step
  split at step
  case h_1 phase => exact Option.some.inj step ▸ .listened phase
  case h_2 phase => exact Option.some.inj step ▸ .scanned phase
  case h_3 v rest phase =>
    split at step
    · rename_i none
      exact Option.some.inj step ▸ .scanEmpty phase none
    · rename_i f more waiting
      obtain ⟨packet, read, handled⟩ := Option.bind_eq_some_iff.mp step
      cases packet with
      | mc m =>
        obtain ⟨d, queued, rfl⟩ := Option.map_eq_some_iff.mp handled
        exact .recvMc phase waiting read queued
      | route p =>
        obtain ⟨d, stored, rfl⟩ := Option.map_eq_some_iff.mp handled
        exact .recvRoute phase waiting read stored
      | sdp m =>
        obtain ⟨d, dispatched, rfl⟩ := Option.map_eq_some_iff.mp handled
        exact .recvSdp phase waiting read dispatched
      | finished => exact Option.some.inj handled ▸ .recvFinished phase waiting read
  case h_4 phase =>
    split at step
    · rename_i pending
      exact Option.some.inj step ▸ .pending phase pending
    · rename_i quiet
      exact Option.some.inj step ▸ .quiet phase quiet
  case h_5 phase => exact Option.some.inj step ▸ .routed phase
  case h_6 c rest phase =>
    split at step
    · rename_i some
      obtain ⟨d, routed, rfl⟩ := Option.map_eq_some_iff.mp step
      exact .route phase some routed
    · rename_i empty
      exact Option.some.inj step ▸ .routeEmpty phase empty
  case h_7 phase => exact Option.some.inj step ▸ .sent phase
  case h_8 v rest phase =>
    split at step
    · rename_i some
      obtain ⟨d, sent, rfl⟩ := Option.map_eq_some_iff.mp step
      exact .send phase some sent
    · rename_i empty
      exact Option.some.inj step ▸ .sendEmpty phase empty
  case h_9 phase => exact Option.some.inj step ▸ .flushed phase
  case h_10 v rest phase => exact Option.some.inj step ▸ .flush phase

theorem step_acts (step : s.step k past coreMap a = some t) : Acts k past coreMap s a t := by
  cases a with
  | ether stale g =>
    simp only [Emulator.step] at step
    split at step
    · obtain ⟨d, received, rfl⟩ := Option.map_eq_some_iff.mp step
      exact .ether received
    · cases step
  | run v =>
    simp only [Emulator.step] at step
    split at step
    · rename_i on
      obtain ⟨m, moved, rfl⟩ := Option.map_eq_some_iff.mp step
      exact .run on moved
    · cases step
  | read v stale mem rawtime =>
    simp only [Emulator.step] at step
    split at step
    · cases step
    · rename_i f rest waiting
      obtain ⟨packet, read, handled⟩ := Option.bind_eq_some_iff.mp step
      cases packet with
      | mc m =>
        simp only [readPacket] at handled
        split at handled
        · rename_i on
          exact Option.some.inj handled ▸ .takeMc on waiting read
        · exact Option.some.inj handled ▸ .skipMc waiting read
      | sdp m =>
        simp only [readPacket, Option.bind_eq_bind] at handled
        split at handled
        · cases handled
        · obtain ⟨chipID, found, result⟩ := Option.bind_eq_some_iff.mp handled
          exact Option.some.inj result ▸ .takeSdp waiting read found
      | route p | finished => cases handled
  | resend v | sendMc v key data load | setRoute v p =>
    simp only [Emulator.step] at step
    split at step
    · rename_i guard
      cases step
      constructor
      exact guard
    · cases step
  | sendSdp v stale m | stop v =>
    simp only [Emulator.step] at step
    split at step
    · cases step
      constructor
    · cases step
  | dispatch stale => exact .dispatch (dispatch_cases step)
  | loseUp v n =>
    simp only [Emulator.step] at step
    split at step
    · rename_i lost
      obtain ⟨f, here, read⟩ := Option.bind_eq_some_iff.mp lost
      exact Option.some.inj step ▸ .loseMcUp here read
    · rename_i lost
      obtain ⟨f, here, read⟩ := Option.bind_eq_some_iff.mp lost
      exact Option.some.inj step ▸ .loseSdpUp here read
    · cases step
  | loseDown v n =>
    simp only [Emulator.step] at step
    split at step
    · rename_i lost
      obtain ⟨f, here, read⟩ := Option.bind_eq_some_iff.mp lost
      exact Option.some.inj step ▸ .loseMcDown here read
    · cases step

end Inversion
end Emulator
end SpinEmu
