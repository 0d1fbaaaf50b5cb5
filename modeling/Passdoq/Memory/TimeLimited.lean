import Passdoq.Lib.Run
import Passdoq.Vault.Entry

/-!
# Time-limited buffers

`SecureBuffer` and `TimeLimitedBuffer` in `memory.cpp`. A reading of the steady clock is a `TimePoint` too.

* `data` : what `data()` gives at a reading of the clock, or the exception it throws;
* `BufferRun` : a buffer with the clock, and whether `lock()` was called and whether the clock has reached the expiry;
* `StaysGone` : from then on `data()` fails, and a locked buffer holds zeros;
* `Respects` : no refresh puts the expiry of a buffer that has expired into the future.
-/

namespace Passdoq.Memory

/-! ## The buffers -/

structure SecureBuffer where
  buffer : Bytes
  deriving DecidableEq

def SecureBuffer.new (size : Nat) : SecureBuffer := ⟨List.replicate size 0⟩

def SecureBuffer.zero (b : SecureBuffer) : SecureBuffer :=
  if b.buffer ≠ [] then ⟨List.replicate b.buffer.length 0⟩ else b

/-- A buffer whose content can be reached up to its expiry; the timeout is in seconds. -/
structure TimeLimitedBuffer where
  buffer : SecureBuffer
  expiry : TimePoint
  timeout : Int
  locked : Bool

/-- `now + timeout` in nanoseconds. -/
def expiryFrom (now : TimePoint) (timeout : Int) : TimePoint := TimePoint.wrap (now.ns + timeout * 1000000000)

namespace TimeLimitedBuffer

def new (size : Nat) (timeout : Int) (now : TimePoint) : TimeLimitedBuffer :=
  ⟨SecureBuffer.new size, expiryFrom now timeout, timeout, false⟩

def isExpired (b : TimeLimitedBuffer) (now : TimePoint) : Bool := b.expiry.ns ≤ now.ns

/-- Both overloads of `data()`: the bytes that the pointer leads to. -/
def data (b : TimeLimitedBuffer) (now : TimePoint) : Except String Bytes :=
  if b.locked || b.isExpired now then .error "Buffer is locked or expired" else .ok b.buffer.buffer

def size (b : TimeLimitedBuffer) : Nat := b.buffer.buffer.length

def refreshTimeout (b : TimeLimitedBuffer) (now : TimePoint) : TimeLimitedBuffer :=
  { b with expiry := expiryFrom now b.timeout }

def lock (b : TimeLimitedBuffer) : TimeLimitedBuffer := { b with buffer := b.buffer.zero, locked := true }

end TimeLimitedBuffer

/-! ## Runs -/

/-- The calls on a buffer; after `data()` the caller writes bytes through the pointer. -/
inductive BufferCall
  | data (writes : List (Nat × UInt8))
  | refreshTimeout
  | lock
  | size
  deriving DecidableEq

structure TimedCall where
  now : TimePoint
  call : BufferCall

/-- Writing through the pointer that `data()` gave. -/
def writeThrough (bytes : Bytes) (writes : List (Nat × UInt8)) : Bytes := writes.foldl (fun b w => b.set w.1 w.2) bytes

def TimeLimitedBuffer.after (b : TimeLimitedBuffer) (ev : TimedCall) : TimeLimitedBuffer :=
  match ev.call with
  | .data writes => match b.data ev.now with
    | .ok bytes => { b with buffer := ⟨writeThrough bytes writes⟩ }
    | .error _ => b
  | .refreshTimeout => b.refreshTimeout ev.now
  | .lock => b.lock
  | .size => b

/-- A buffer in a run: the last reading of the clock, whether `lock()` was called, and whether a reading has reached the
expiry that the buffer had at that time. -/
structure BufferRun where
  buffer : TimeLimitedBuffer
  clock : TimePoint
  lockCalled : Bool
  reached : Bool

def BufferRun.new (size : Nat) (timeout : Int) (now : TimePoint) : BufferRun :=
  ⟨TimeLimitedBuffer.new size timeout now, now, false, false⟩

/-- One call; the readings of the clock do not decrease. -/
def bufferStep (s : BufferRun) (ev : TimedCall) : Option BufferRun :=
  if s.clock.ns ≤ ev.now.ns then
    some {
      buffer := s.buffer.after ev
      clock := ev.now
      lockCalled := s.lockCalled || ev.call = .lock
      reached := s.reached || s.buffer.expiry.ns ≤ ev.now.ns }
  else none

/-- A buffer that was locked or has expired cannot be reached again, and a locked one holds zeros. -/
structure StaysGone (s : BufferRun) : Prop where
  fails : s.lockCalled = true ∨ s.reached = true → ∀ now, s.clock.ns ≤ now.ns → (s.buffer.data now).isOk = false
  zero : s.lockCalled = true → ∀ c ∈ s.buffer.buffer.buffer, c = 0

/-- The call is no refresh, or the buffer is locked or has not expired, or its new expiry is not in the future. -/
def Respects (s : BufferRun) (ev : TimedCall) : Prop :=
  ev.call = .refreshTimeout → s.buffer.locked = true ∨ ev.now.ns < s.buffer.expiry.ns ∨
    (expiryFrom ev.now s.buffer.timeout).ns ≤ ev.now.ns

instance respectsDecidable (s : BufferRun) (ev : TimedCall) : Decidable (Respects s ev) :=
  inferInstanceAs (Decidable (ev.call = .refreshTimeout → s.buffer.locked = true ∨ ev.now.ns < s.buffer.expiry.ns ∨
    (expiryFrom ev.now s.buffer.timeout).ns ≤ ev.now.ns))

variable {b : TimeLimitedBuffer} {s s' : BufferRun} {ev : TimedCall} {evs : List TimedCall} {now : TimePoint}

theorem data_fails : (b.data now).isOk = false ↔ b.locked = true ∨ b.expiry.ns ≤ now.ns := by
  unfold TimeLimitedBuffer.data TimeLimitedBuffer.isExpired
  by_cases hlocked : b.locked = true
  · simp [hlocked, Except.isOk, Except.toBool]
  · by_cases hexpired : b.expiry.ns ≤ now.ns <;> simp [hlocked, hexpired, Except.isOk, Except.toBool]

theorem zero_zero (b : SecureBuffer) : ∀ c ∈ b.zero.buffer, c = 0 := by
  intro c hc
  unfold SecureBuffer.zero at hc
  split_ifs at hc with hne
  · exact List.eq_of_mem_replicate hc
  · rw [not_not.mp hne] at hc
    cases hc

/-- A call changes the expiry only by a refresh, and locks the buffer only by `lock()`. -/
theorem after_cases (b : TimeLimitedBuffer) (ev : TimedCall) :
    (ev.call = .refreshTimeout ∧ b.after ev = b.refreshTimeout ev.now) ∨
    (ev.call = .lock ∧ b.after ev = b.lock) ∨
    (ev.call ≠ .refreshTimeout ∧ ev.call ≠ .lock ∧ (b.after ev).expiry = b.expiry ∧ (b.after ev).locked = b.locked ∧
      (b.locked = true → b.after ev = b)) := by
  unfold TimeLimitedBuffer.after
  cases hcall : ev.call with
  | data writes =>
    refine .inr (.inr ⟨nofun, nofun, ?_⟩)
    cases hdata : b.data ev.now with
    | error e => exact ⟨rfl, rfl, fun _ => rfl⟩
    | ok bytes =>
      refine ⟨rfl, rfl, fun hlocked => ?_⟩
      have hfails := data_fails.mpr (.inl hlocked : b.locked = true ∨ b.expiry.ns ≤ ev.now.ns)
      rw [hdata] at hfails
      cases hfails
  | refreshTimeout => exact .inl ⟨rfl, rfl⟩
  | lock => exact .inr (.inl ⟨rfl, rfl⟩)
  | size => exact .inr (.inr ⟨nofun, nofun, rfl, rfl, fun _ => rfl⟩)

/-- What every run keeps: `lock()` locks for good, and a locked buffer holds zeros. -/
structure Kept (s : BufferRun) : Prop where
  locked : s.lockCalled = s.buffer.locked
  zero : s.buffer.locked = true → ∀ c ∈ s.buffer.buffer.buffer, c = 0

/-- A buffer whose expiry the clock has reached is locked or still expired. -/
def StaysExpired (s : BufferRun) : Prop := s.reached = true → s.buffer.locked = true ∨ s.buffer.expiry.ns ≤ s.clock.ns

theorem Kept.new (size : Nat) (timeout : Int) (now : TimePoint) : Kept (BufferRun.new size timeout now) := ⟨rfl, nofun⟩

/-- The state that a step leads to. -/
theorem bufferStep_eq (hstep : bufferStep s ev = some s') : s.clock.ns ≤ ev.now.ns ∧ s'.buffer = s.buffer.after ev ∧
    s'.clock = ev.now ∧ s'.lockCalled = (s.lockCalled || ev.call = .lock) ∧
    (s'.reached = true ↔ s.reached = true ∨ s.buffer.expiry.ns ≤ ev.now.ns) := by
  unfold bufferStep at hstep
  split_ifs at hstep with hclock
  obtain rfl := Option.some.inj hstep
  refine ⟨hclock, rfl, rfl, rfl, ?_⟩
  rw [Bool.or_eq_true_iff, decide_eq_true_iff]

theorem Kept.step (h : Kept s) (hstep : bufferStep s ev = some s') : Kept s' := by
  obtain ⟨-, hbuffer, -, hcalled, -⟩ := bufferStep_eq hstep
  rcases after_cases s.buffer ev with ⟨hcall, hafter⟩ | ⟨hcall, hafter⟩ | ⟨-, hlock, -, hlocked, hsame⟩
  · rw [hafter] at hbuffer
    rw [hcall] at hcalled
    constructor
    · rw [hcalled, hbuffer, h.locked]
      exact Bool.or_false _
    · rw [hbuffer]
      exact h.zero
  · rw [hafter] at hbuffer
    rw [hcall, decide_eq_true rfl, Bool.or_true] at hcalled
    constructor
    · rw [hcalled, hbuffer]
      rfl
    · rw [hbuffer]
      exact fun _ => zero_zero s.buffer.buffer
  · rw [decide_eq_false hlock, Bool.or_false] at hcalled
    constructor
    · rw [hcalled, hbuffer, hlocked, h.locked]
    · rw [hbuffer]
      intro hafter
      have hbefore : s.buffer.locked = true := hlocked ▸ hafter
      rw [hsame hbefore]
      exact h.zero hbefore

theorem StaysExpired.step (h : StaysExpired s) (hrespects : Respects s ev) (hstep : bufferStep s ev = some s') :
    StaysExpired s' := by
  obtain ⟨hclock, hbuffer, hnow, -, hreached⟩ := bufferStep_eq hstep
  intro hafter
  -- a reading that has reached the expiry before this call, or reaches it now
  have hexpired : s.buffer.locked = true ∨ s.buffer.expiry.ns ≤ ev.now.ns := by
    rcases hreached.mp hafter with hbefore | hnow
    · exact (h hbefore).imp_right fun hle => hle.trans hclock
    · exact .inr hnow
  rw [hbuffer, hnow]
  rcases after_cases s.buffer ev with ⟨hcall, hafter⟩ | ⟨-, hafter⟩ | ⟨-, -, hexpiry, hlocked, -⟩
  · rw [hafter]
    rcases hrespects hcall with hlocked | hearly | hlate
    · exact .inl hlocked
    · exact hexpired.imp_right fun hle => absurd hearly (Int.not_lt.mpr hle)
    · exact .inr hlate
  · rw [hafter]
    exact .inl rfl
  · rw [hlocked, hexpiry]
    exact hexpired

theorem Kept.run {size : Nat} {timeout : Int} (hrun : runs bufferStep (BufferRun.new size timeout now) evs = some s) :
    Kept s :=
  runs_preserves (fun _ _ _ h hstep => Kept.step h hstep) (Kept.new size timeout now) hrun

/-- A buffer that was locked fails at every later time and holds zeros, whatever else is called. -/
theorem locked_for_good {size : Nat} {timeout : Int} (hrun : runs bufferStep (BufferRun.new size timeout now) evs = some s)
    (hlock : s.lockCalled = true) (now' : TimePoint) :
    (s.buffer.data now').isOk = false ∧ ∀ c ∈ s.buffer.buffer.buffer, c = 0 := by
  have hkept := Kept.run hrun
  have hlocked : s.buffer.locked = true := hkept.locked ▸ hlock
  exact ⟨data_fails.mpr (.inl hlocked), hkept.zero hlocked⟩

theorem Kept.staysGone (h : Kept s) (hexpired : StaysExpired s) : StaysGone s where
  fails := by
    intro hgone now hnow
    rw [data_fails]
    rcases hgone with hlock | hreached
    · exact .inl (h.locked ▸ hlock)
    · exact (hexpired hreached).imp_right fun hle => hle.trans hnow
  zero := fun hlock => h.zero (h.locked ▸ hlock)

/-- Only a step that respects the expiry leads to a buffer that stays gone. -/
theorem respects_of_staysGone (hstep : bufferStep s ev = some s') (h : StaysGone s') : Respects s ev := by
  intro hcall
  obtain ⟨-, hbuffer, hnow, -, hreached⟩ := bufferStep_eq hstep
  by_cases hearly : ev.now.ns < s.buffer.expiry.ns
  · exact .inr (.inl hearly)
  · have hexpired : s'.reached = true := hreached.mpr (.inr (Int.not_lt.mp hearly))
    have hfails := data_fails.mp (h.fails (.inr hexpired) ev.now (hnow ▸ le_refl _))
    have hafter : s.buffer.after ev = s.buffer.refreshTimeout ev.now := by
      unfold TimeLimitedBuffer.after
      rw [hcall]
    rw [hbuffer, hafter] at hfails
    exact hfails.imp_right .inr

/-- In a run of calls on a new buffer what was locked or has expired stays gone at every time exactly when every refresh
respects the expiry. -/
theorem staysGone_iff {size : Nat} {timeout : Int} (hrun : runs bufferStep (BufferRun.new size timeout now) evs = some s) :
    (∀ evs₁ evs₂ s₁, evs = evs₁ ++ evs₂ → runs bufferStep (BufferRun.new size timeout now) evs₁ = some s₁ → StaysGone s₁) ↔
      Along bufferStep Respects (BufferRun.new size timeout now) evs := by
  constructor
  · intro hall
    exact Along.of_good (fun _ _ _ hstep => respects_of_staysGone hstep) hrun hall
  · rintro hrespects evs₁ evs₂ s₁ rfl hrun₁
    have hnew : StaysExpired (BufferRun.new size timeout now) := by
      intro hreached
      cases hreached
    have hexpired := runs_invariant (fun _ _ _ h hC hstep => StaysExpired.step h hC hstep) hnew
      (hrespects.append hrun₁).1 hrun₁
    exact (Kept.run hrun₁).staysGone hexpired

def seconds (n : Int) : TimePoint := TimePoint.wrap (n * 1000000000)

/-- A buffer for five seconds is refreshed in time, written to, and locked. -/
def refreshedInTime : List TimedCall :=
  [⟨seconds 3, .refreshTimeout⟩, ⟨seconds 6, .data [(0, 42)]⟩, ⟨seconds 7, .lock⟩, ⟨seconds 7, .refreshTimeout⟩]

theorem refreshedInTime_staysGone : ∃ s, runs bufferStep (BufferRun.new 4 5 .epoch) refreshedInTime = some s ∧
    s.lockCalled = true ∧ StaysGone s := by
  have hcheck : (runs bufferStep (BufferRun.new 4 5 .epoch) refreshedInTime).any (fun s => s.lockCalled) = true := by
    decide +kernel
  obtain ⟨s, hrun, hlock⟩ := (Option.any_eq_true _ _).mp hcheck
  have hrespects : Along bufferStep Respects (BufferRun.new 4 5 .epoch) refreshedInTime := by decide +kernel
  exact ⟨s, hrun, hlock, (staysGone_iff hrun).mpr hrespects _ [] s (List.append_nil _).symm hrun⟩

/-- A refresh after the expiry brings the data back. -/
theorem not_staysGone : ¬ ∀ size timeout now evs s, runs bufferStep (BufferRun.new size timeout now) evs = some s →
    StaysGone s := by
  intro h
  have hcheck : (runs bufferStep (BufferRun.new 4 5 .epoch) [⟨seconds 1, .data [(0, 42)]⟩, ⟨seconds 6, .refreshTimeout⟩]).any
      (fun s => s.reached && (s.buffer.data s.clock).isOk) = true := by decide +kernel
  obtain ⟨s, hrun, hs⟩ := (Option.any_eq_true _ _).mp hcheck
  obtain ⟨hreached, hok⟩ := Bool.and_eq_true_iff.mp hs
  have hfails := (h 4 5 .epoch _ s hrun).fails (.inr hreached) s.clock (le_refl _)
  rw [hok] at hfails
  cases hfails

end Passdoq.Memory
