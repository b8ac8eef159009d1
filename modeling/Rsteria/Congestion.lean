import Mathlib.Data.List.Induction
import Mathlib.Data.Rat.Floor
import Mathlib.Data.UInt
import Mathlib.Logic.Function.Basic

/-!
# The switchable congestion controller

`Brutal`, `SwitchableController` and `SwitchableFactory` of `src/congestion.rs`. A congestion
controller is an implementation of the trait `Controller` of the QUIC library: a type of states with
the operations on them, of which `on_sent` and `on_end_acks` do nothing by default. BBR is such an
implementation of which nothing is known but that `clone_box` copies its state. The rate of Brutal
and the flag of the switchable controller are shared cells: a controller holds the address of a
cell, a clone of it the same address, and `window()` reads the cell. Times are in nanoseconds, the
counters of Brutal wrap around at 64 bits, and its window is computed exactly.

A switchable controller is Brutal and BBR side by side: whatever path events it is fed, whenever it
is cloned and the shared cells are written, its components are those of a stand-alone Brutal and a
stand-alone BBR that were built with it and fed the same events (`controllers_run`).

## Main definitions

* `Congestion.Memory`, `Congestion.Controller`, `Congestion.PathEvent`.
* `Congestion.Brutal`, `Congestion.SwitchableController`, `Congestion.SwitchableFactory`.
* `Congestion.System` : the controllers of a factory and the shared cells.
* `Congestion.Record` : how a controller was built and what it was fed.

## Main results

* `Congestion.controllers_run` : every controller is made of its stand-alone components.
* `Congestion.governed_run` : its windows are those of the one that the flag selects.
-/

namespace Rsteria.Congestion

/-- `Instant` and `Duration`, in nanoseconds. -/
abbrev Instant := ℕ

@[inherit_doc Instant]
abbrev Duration := ℕ

/-! ### Shared cells -/

/-- The cells behind an `Arc<AtomicU64>` or an `Arc<AtomicBool>`, by address. -/
structure Memory where
  u64 : ℕ → UInt64
  bool : ℕ → Bool

/-- `AtomicU64::store`. -/
def Memory.storeU64 (m : Memory) (addr : ℕ) (v : UInt64) : Memory :=
  { m with u64 := Function.update m.u64 addr v }

/-- `AtomicBool::store`. -/
def Memory.storeBool (m : Memory) (addr : ℕ) (v : Bool) : Memory :=
  { m with bool := Function.update m.bool addr v }

@[simp] theorem Memory.u64_storeU64 (m : Memory) (addr : ℕ) (v : UInt64) :
    (m.storeU64 addr v).u64 addr = v :=
  Function.update_self ..

@[simp] theorem Memory.bool_storeU64 (m : Memory) (addr : ℕ) (v : UInt64) :
    (m.storeU64 addr v).bool = m.bool :=
  rfl

@[simp] theorem Memory.bool_storeBool (m : Memory) (addr : ℕ) (v : Bool) :
    (m.storeBool addr v).bool addr = v :=
  Function.update_self ..

@[simp] theorem Memory.u64_storeBool (m : Memory) (addr : ℕ) (v : Bool) :
    (m.storeBool addr v).u64 = m.u64 :=
  rfl

/-! ### Congestion controllers -/

section Controller

variable {ρ σ : Type}

/-- The trait `Controller` for the type `σ`, with the estimators of the round-trip time in `ρ`. -/
structure Controller (ρ σ : Type) where
  onSent (s : σ) (now : Instant) (bytes lastPacketNumber : UInt64) : σ := s
  onAck (s : σ) (now sent : Instant) (bytes : UInt64) (appLimited : Bool) (rtt : ρ) : σ
  onEndAcks (s : σ) (now : Instant) (inFlight : UInt64) (appLimited : Bool)
    (largestPacketNumAcked : Option UInt64) : σ := s
  onCongestionEvent (s : σ) (now sent : Instant) (isPersistentCongestion : Bool)
    (lostBytes : UInt64) : σ
  onMtuUpdate (s : σ) (newMtu : UInt16) : σ
  window (s : σ) (m : Memory) : ℕ
  cloneBox (s : σ) : σ
  initialWindow (s : σ) (m : Memory) : ℕ

/-- The events of a path, with the arguments of the call that reports them. -/
inductive PathEvent (ρ : Type) where
  | sent (now : Instant) (bytes lastPacketNumber : UInt64)
  | ack (now sent : Instant) (bytes : UInt64) (appLimited : Bool) (rtt : ρ)
  | endAcks (now : Instant) (inFlight : UInt64) (appLimited : Bool)
    (largestPacketNumAcked : Option UInt64)
  | congestion (now sent : Instant) (isPersistentCongestion : Bool) (lostBytes : UInt64)
  | mtuUpdate (newMtu : UInt16)

/-- A controller is told of an event. -/
def Controller.handle (c : Controller ρ σ) (s : σ) : PathEvent ρ → σ
  | .sent now bytes last => c.onSent s now bytes last
  | .ack now sent bytes appLimited rtt => c.onAck s now sent bytes appLimited rtt
  | .endAcks now inFlight appLimited largest => c.onEndAcks s now inFlight appLimited largest
  | .congestion now sent persistent lost => c.onCongestionEvent s now sent persistent lost
  | .mtuUpdate newMtu => c.onMtuUpdate s newMtu

/-- A controller is told of a sequence of events. -/
def Controller.feed (c : Controller ρ σ) (s : σ) (es : List (PathEvent ρ)) : σ :=
  es.foldl c.handle s

theorem Controller.feed_concat (c : Controller ρ σ) (s : σ) (es : List (PathEvent ρ))
    (e : PathEvent ρ) : c.feed s (es ++ [e]) = c.handle (c.feed s es) e :=
  List.foldl_concat ..

/-- A controller of the QUIC library with its factory. -/
structure Library (ρ σ : Type) extends Controller ρ σ where
  build (now : Instant) (currentMtu : UInt16) : σ

/-- `clone_box` duplicates the state. -/
def Controller.Copies (c : Controller ρ σ) : Prop := ∀ s, c.cloneBox s = s

end Controller

/-! ### Brutal -/

/-- Seconds of acknowledgement and loss history. -/
def slotCount : ℕ := 5

def minSampleCount : UInt64 := 50

def minAckRate : ℚ := 4 / 5

/-- The acknowledgements and losses of one second. The counters wrap around, as they do where
overflow is not checked. -/
structure Slot where
  ts : ℤ
  ack : UInt64
  loss : UInt64
  deriving DecidableEq, Repr

def Slot.default : Slot := ⟨0, 0, 0⟩

/-- The fixed-rate, loss-tolerant controller; `rate` is the address of the shared target rate in
bytes per second. -/
structure Brutal where
  rate : ℕ
  mtu : ℕ
  base : Instant
  srtt : Duration
  ackRate : ℚ
  slots : Vector Slot slotCount
  deriving DecidableEq

namespace Brutal

/-- `Brutal::new` at the instant `base`. -/
def new (rate : ℕ) (mtu : UInt16) (base : Instant) : Brutal where
  rate := rate
  mtu := mtu.toNat
  base := base
  srtt := 0
  ackRate := 1
  slots := Vector.replicate slotCount Slot.default

/-- The whole seconds since `base`. -/
def secs (b : Brutal) (now : Instant) : ℤ := ((now - b.base) / 10 ^ 9 : ℕ)

/-- The share of acknowledgements in the recent slots, if there are enough samples. -/
def updateAckRate (b : Brutal) (nowTs : ℤ) : Brutal :=
  let minTs := nowTs - slotCount
  let recent := b.slots.toList.filter fun s => ¬ s.ts < minTs
  let acks := (recent.map Slot.ack).sum
  let losses := (recent.map Slot.loss).sum
  if acks + losses < minSampleCount then { b with ackRate := 1 }
  else
    let rate : ℚ := acks.toNat / (acks + losses).toNat
    { b with ackRate := max rate minAckRate }

/-- Count acknowledgements and losses in the slot of the current second. -/
def record (b : Brutal) (now : Instant) (ack loss : UInt64) : Brutal :=
  let ts := b.secs now
  let i : Fin slotCount := ⟨ts.toNat % slotCount, Nat.mod_lt _ (by decide)⟩
  let slot := b.slots.get i
  let slot :=
    if slot.ts = ts then { slot with ack := slot.ack + ack, loss := slot.loss + loss }
    else ⟨ts, ack, loss⟩
  { b with slots := b.slots.set i slot }.updateAckRate ts

/-- The window that is used before the round-trip time is known, and at least. -/
def floor (b : Brutal) : ℕ := max (b.mtu * 2) 10240

/-- The window at a rate of `bps` bytes per second. -/
def windowAt (b : Brutal) (bps : UInt64) : ℕ :=
  if b.srtt = 0 then b.floor
  else
    let cwnd : ℚ := bps.toNat * (b.srtt / 10 ^ 9) / b.ackRate
    -- The conversion of a float to `u64` saturates.
    max (min ⌊cwnd⌋₊ (2 ^ 64 - 1)) b.floor

/-- `Controller for Brutal`, with the smoothed round-trip time of an estimator. -/
def controller {ρ : Type} (get : ρ → Duration) : Controller ρ Brutal where
  onAck b now _ _ _ rtt := { b with srtt := get rtt }.record now 1 0
  onCongestionEvent b now _ _ lostBytes :=
    -- Losses are recorded, but never shrink the window.
    b.record now 0 (UInt64.ofNat (max (lostBytes.toNat / max b.mtu 1) 1))
  onMtuUpdate b newMtu := { b with mtu := newMtu.toNat }
  window b m := b.windowAt (m.u64 b.rate)
  cloneBox b := b
  initialWindow b _ := b.floor

@[simp] theorem rate_updateAckRate (b : Brutal) (nowTs : ℤ) :
    (b.updateAckRate nowTs).rate = b.rate := by
  simp only [updateAckRate]
  split_ifs
  · rfl
  · rfl

@[simp] theorem rate_record (b : Brutal) (now : Instant) (ack loss : UInt64) :
    (b.record now ack loss).rate = b.rate := by
  simp only [record, rate_updateAckRate]

/-- No event changes which cell the rate is read from. -/
theorem rate_handle {ρ : Type} (get : ρ → Duration) (b : Brutal) (e : PathEvent ρ) :
    ((controller get).handle b e).rate = b.rate := by
  cases e with
  | sent now bytes last => rfl
  | ack now sent bytes appLimited rtt => exact rate_record ..
  | endAcks now inFlight appLimited largest => rfl
  | congestion now sent persistent lost => exact rate_record ..
  | mtuUpdate newMtu => rfl

theorem rate_feed {ρ : Type} (get : ρ → Duration) (b : Brutal) (es : List (PathEvent ρ)) :
    ((controller get).feed b es).rate = b.rate := by
  induction es using List.reverseRecOn with
  | nil => rfl
  | append_singleton es e ih => rw [Controller.feed_concat, rate_handle, ih]

end Brutal

/-! ### The switchable controller -/

/-- Brutal and BBR in parallel; the flag at the address `useBbr` selects the one that governs the
window. -/
structure SwitchableController (σ : Type) where
  brutal : Brutal
  bbr : σ
  useBbr : ℕ

/-- The addresses of the cells that the controllers of a factory share. -/
structure SwitchableFactory where
  rate : ℕ
  useBbr : ℕ
  deriving DecidableEq, Repr

section Switchable

variable {ρ σ : Type} (get : ρ → Duration) (bbr : Library ρ σ)

namespace SwitchableController

def bbrActive (c : SwitchableController σ) (m : Memory) : Bool := m.bool c.useBbr

/-- `Controller for SwitchableController`. -/
def controller : Controller ρ (SwitchableController σ) where
  onSent c now bytes last :=
    { c with
      brutal := (Brutal.controller get).onSent c.brutal now bytes last
      bbr := bbr.onSent c.bbr now bytes last }
  onAck c now sent bytes appLimited rtt :=
    { c with
      brutal := (Brutal.controller get).onAck c.brutal now sent bytes appLimited rtt
      bbr := bbr.onAck c.bbr now sent bytes appLimited rtt }
  onEndAcks c now inFlight appLimited largest :=
    { c with
      brutal := (Brutal.controller get).onEndAcks c.brutal now inFlight appLimited largest
      bbr := bbr.onEndAcks c.bbr now inFlight appLimited largest }
  onCongestionEvent c now sent persistent lost :=
    { c with
      brutal := (Brutal.controller get).onCongestionEvent c.brutal now sent persistent lost
      bbr := bbr.onCongestionEvent c.bbr now sent persistent lost }
  onMtuUpdate c newMtu :=
    { c with
      brutal := (Brutal.controller get).onMtuUpdate c.brutal newMtu
      bbr := bbr.onMtuUpdate c.bbr newMtu }
  window c m :=
    if c.bbrActive m then bbr.window c.bbr m else (Brutal.controller get).window c.brutal m
  cloneBox c :=
    { brutal := (Brutal.controller get).cloneBox c.brutal
      bbr := bbr.cloneBox c.bbr
      useBbr := c.useBbr }
  initialWindow c m :=
    if c.bbrActive m then bbr.initialWindow c.bbr m
    else (Brutal.controller get).initialWindow c.brutal m

end SwitchableController

/-- `SwitchableFactory::build`; `base` is the instant at which Brutal is built. -/
def SwitchableFactory.build (factory : SwitchableFactory) (now base : Instant)
    (currentMtu : UInt16) : SwitchableController σ where
  brutal := Brutal.new factory.rate currentMtu base
  bbr := bbr.build now currentMtu
  useBbr := factory.useBbr

/-! ### The controllers of a factory -/

/-- The shared cells, and the controllers of a factory with their clones. -/
structure System (σ : Type) where
  mem : Memory
  controllers : List (SwitchableController σ)

/-- What happens to the controllers of a factory. -/
inductive Event (ρ : Type) where
  /-- The factory builds a controller. -/
  | build (now base : Instant) (currentMtu : UInt16)
  /-- A controller is told of an event of its path. -/
  | path (i : ℕ) (e : PathEvent ρ)
  /-- A controller is cloned. -/
  | cloneBox (i : ℕ)
  /-- The shared rate is written. -/
  | storeRate (v : UInt64)
  /-- The shared flag is written. -/
  | storeUseBbr (v : Bool)

/-- One event. -/
def System.step (factory : SwitchableFactory) (s : System σ) : Event ρ → System σ
  | .build now base mtu =>
    { s with controllers := s.controllers ++ [factory.build bbr now base mtu] }
  | .path i e =>
    { s with controllers :=
      s.controllers.modify i fun c => (SwitchableController.controller get bbr).handle c e }
  | .cloneBox i =>
    { s with controllers := s.controllers ++
      s.controllers[i]?.toList.map (SwitchableController.controller get bbr).cloneBox }
  | .storeRate v => { s with mem := s.mem.storeU64 factory.rate v }
  | .storeUseBbr v => { s with mem := s.mem.storeBool factory.useBbr v }

/-- The controllers after a sequence of events, from cells that hold anything. -/
def System.run (factory : SwitchableFactory) (m : Memory) (es : List (Event ρ)) : System σ :=
  es.foldl (System.step get bbr factory) ⟨m, []⟩

/-! ### Stand-alone controllers -/

/-- How a controller was built, and the events that it, or the controller that it was cloned from,
was told of. -/
structure Record (ρ : Type) where
  now : Instant
  base : Instant
  mtu : UInt16
  events : List (PathEvent ρ)

namespace Record

/-- The records of the controllers after an event. -/
def step (rs : List (Record ρ)) : Event ρ → List (Record ρ)
  | .build now base mtu => rs ++ [⟨now, base, mtu, []⟩]
  | .path i e => rs.modify i fun r => { r with events := r.events ++ [e] }
  | .cloneBox i => rs ++ rs[i]?.toList
  | _ => rs

/-- The records of the controllers after a sequence of events. -/
def run (es : List (Event ρ)) : List (Record ρ) := es.foldl step []

/-- A stand-alone Brutal with this record. -/
def brutal (factory : SwitchableFactory) (r : Record ρ) : Brutal :=
  (Brutal.controller get).feed (Brutal.new factory.rate r.mtu r.base) r.events

/-- A stand-alone BBR with this record. -/
def bbrAlone (r : Record ρ) : σ := bbr.feed (bbr.build r.now r.mtu) r.events

/-- Both, side by side. -/
def both (factory : SwitchableFactory) (r : Record ρ) : SwitchableController σ where
  brutal := r.brutal get factory
  bbr := r.bbrAlone bbr
  useBbr := factory.useBbr

end Record

variable {get bbr} {factory : SwitchableFactory}

/-- An event reaches both components. -/
theorem handle_switchable (c : SwitchableController σ) (e : PathEvent ρ) :
    (SwitchableController.controller get bbr).handle c e =
      { c with
        brutal := (Brutal.controller get).handle c.brutal e
        bbr := bbr.handle c.bbr e } := by
  cases e with
  | sent now bytes last => rfl
  | ack now sent bytes appLimited rtt => rfl
  | endAcks now inFlight appLimited largest => rfl
  | congestion now sent persistent lost => rfl
  | mtuUpdate newMtu => rfl

theorem both_concat (r : Record ρ) (e : PathEvent ρ) :
    Record.both get bbr factory { r with events := r.events ++ [e] } =
      (SwitchableController.controller get bbr).handle (r.both get bbr factory) e := by
  rw [handle_switchable]
  simp only [Record.both, Record.brutal, Record.bbrAlone, Controller.feed_concat]

theorem cloneBox_both (hbbr : bbr.Copies) (r : Record ρ) :
    (SwitchableController.controller get bbr).cloneBox (r.both get bbr factory) =
      r.both get bbr factory := by
  simp only [SwitchableController.controller, Record.both, hbbr (r.bbrAlone bbr)]
  rfl

/-- One event keeps every controller made of its stand-alone components. -/
theorem controllers_step (hbbr : bbr.Copies) {s : System σ} {rs : List (Record ρ)}
    (hs : s.controllers = rs.map (Record.both get bbr factory)) (e : Event ρ) :
    (s.step get bbr factory e).controllers =
      (Record.step rs e).map (Record.both get bbr factory) := by
  cases e with
  | build now base mtu =>
    simp only [System.step, Record.step, hs, List.map_append, List.map_singleton]
    rfl
  | path i e =>
    simp only [System.step, Record.step, hs]
    apply List.ext_getElem?
    intro j
    simp only [List.getElem?_modify, List.getElem?_map, Option.map_eq_map, Option.map_map]
    refine congrArg (Option.map · rs[j]?) (funext fun r => ?_)
    simp only [Function.comp_apply]
    split_ifs with hij
    · exact (both_concat r e).symm
    · rfl
  | cloneBox i =>
    simp only [System.step, Record.step, hs, List.map_append, List.getElem?_map]
    cases rs[i]? with
    | none => rfl
    | some r => simp only [Option.map_some, Option.toList_some, List.map_singleton,
        cloneBox_both hbbr]
  | storeRate v => exact hs
  | storeUseBbr v => exact hs

/-- **Every controller is Brutal and BBR side by side**, as they would be on their own. -/
theorem controllers_run (hbbr : bbr.Copies) (m : Memory) (es : List (Event ρ)) :
    (System.run get bbr factory m es).controllers =
      (Record.run es).map (Record.both get bbr factory) := by
  induction es using List.reverseRecOn with
  | nil => rfl
  | append_singleton es e ih =>
    rw [System.run, List.foldl_concat, Record.run, List.foldl_concat]
    exact controllers_step hbbr ih e

/-- The windows of a controller are those of the stand-alone controller that the flag selects. -/
structure Governed (get : ρ → Duration) (bbr : Library ρ σ) (factory : SwitchableFactory)
    (m : Memory) (c : SwitchableController σ) (r : Record ρ) : Prop where
  window_eq : (SwitchableController.controller get bbr).window c m =
    if m.bool factory.useBbr then bbr.window (r.bbrAlone bbr) m
    else (Brutal.controller get).window (r.brutal get factory) m
  initialWindow_eq : (SwitchableController.controller get bbr).initialWindow c m =
    if m.bool factory.useBbr then bbr.initialWindow (r.bbrAlone bbr) m
    else (Brutal.controller get).initialWindow (r.brutal get factory) m

theorem governed_both (m : Memory) (r : Record ρ) :
    Governed get bbr factory m (r.both get bbr factory) r :=
  ⟨rfl, rfl⟩

/-- After any events, every controller has a record that governs it. -/
theorem governed_run (hbbr : bbr.Copies) (m : Memory) (es : List (Event ρ)) {i : ℕ}
    {c : SwitchableController σ} (hc : (System.run get bbr factory m es).controllers[i]? = some c) :
    ∃ r, (Record.run es)[i]? = some r ∧
      Governed get bbr factory (System.run get bbr factory m es).mem c r := by
  rw [controllers_run hbbr, List.getElem?_map, Option.map_eq_some_iff] at hc
  obtain ⟨r, hr, rfl⟩ := hc
  exact ⟨r, hr, governed_both _ r⟩

/-- An event writes a shared cell. -/
def Event.stores : Event ρ → Bool
  | .storeRate _ => true
  | .storeUseBbr _ => true
  | _ => false

/-- Only writes change the shared cells. -/
theorem mem_foldl_of_not_stores {es : List (Event ρ)} (hes : ∀ e ∈ es, e.stores = false)
    (s : System σ) : (es.foldl (System.step get bbr factory) s).mem = s.mem := by
  induction es generalizing s with
  | nil => rfl
  | cons e es ih =>
    rw [List.foldl_cons, ih fun e' he' => hes e' (List.mem_cons_of_mem e he')]
    have he := hes e List.mem_cons_self
    cases e with
    | storeRate v => simp [Event.stores] at he
    | storeUseBbr v => simp [Event.stores] at he
    | _ => rfl

end Switchable

end Rsteria.Congestion
