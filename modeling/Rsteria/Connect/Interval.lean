import Rsteria.Connect.Endpoint
import Rsteria.Lib.TimeSpan

/-!
# Hop intervals

The hop task waits for a random time between the two bounds that the resolution of the server
address reads from the configuration. A bound is given in seconds, as any number of 64 bits, with
zero for a default. The width of the interval in milliseconds exceeds 64 bits if the bounds are far
apart; the hop task then draws from what is left of it after cutting it off, so that the waits still
lie between the bounds.

## Main definitions

* `Connect.hopWait` : the time that a turn of the loop of `spawn_hop_task` waits.

## Main results

* `Connect.hopWait_spec` : a wait is computed without a panic and lies between the bounds.
* `Connect.hopConfig_intervals` : the bounds that the resolution sets.
-/

namespace Rsteria.Connect

open Transport

/-- The time that a turn of the loop of `spawn_hop_task` waits, with the number that is drawn. It is
`none` where the program panics: the difference or the sum of the spans is none, or the range of the
draw is empty. -/
def hopWait (min max : TimeSpan) (r : ℕ) : Option TimeSpan :=
  if min ≥ max then some min
  else do
    let width ← max.checkedSub min
    let extra ← randomRange 0 (UInt64.ofNat width.asMillis) r
    min.checkedAdd (.fromMillis extra)

/-- A wait is computed without a panic and lies between the bounds. -/
theorem hopWait_spec {min max : TimeSpan} (h : min ≤ max) (r : ℕ) :
    ∃ wait, hopWait min max r = some wait ∧ min ≤ wait ∧ wait ≤ max := by
  rw [hopWait]
  split_ifs with hge
  · exact ⟨min, rfl, Nat.le_refl _, h⟩
  · obtain ⟨width, hwidth, hnanos⟩ := TimeSpan.checkedSub_eq_some h
    obtain ⟨extra, hextra⟩ : ∃ extra, randomRange 0 (UInt64.ofNat width.asMillis) r = some extra :=
      ⟨_, if_pos (UInt64.zero_le)⟩
    have hle := TimeSpan.fromMillis_le (exists_randomRange_iff.1 ⟨r, hextra⟩).2
    rw [TimeSpan.le_iff] at h
    obtain ⟨wait, hwait, hsum⟩ :=
      TimeSpan.checkedAdd_eq_some (a := min) (b := .fromMillis extra) (c := max) (by omega)
    refine ⟨wait, ?_, ?_⟩
    · rw [hwidth, Option.bind_eq_bind, Option.bind_some, hextra, Option.bind_eq_bind,
        Option.bind_some, hwait]
    · rw [TimeSpan.le_iff, TimeSpan.le_iff]
      omega

variable {lookupHost : String → UInt16 → Except IoError (List SocketAddr)} {config : Config}
  {canonical : SocketAddr} {cfg : HopConfig} {minSecs maxSecs : UInt64}

/-- The configuration with these settings of the hop interval, in seconds. -/
def withIntervals (config : Config) (minSecs maxSecs : UInt64) : Config :=
  { config with hopIntervalMinSecs := minSecs.toNat, hopIntervalMaxSecs := maxSecs.toNat }

/-- The bounds `min` and `max` of the hop interval follow the settings: they are ordered and not
below the floor, a minimum of zero is the default, a maximum of zero or below the minimum is the
minimum, and otherwise the bounds are those that are set. -/
structure Follows (minSecs maxSecs : UInt64) (min max : TimeSpan) : Prop where
  floor : .fromSecs 5 ≤ min
  ordered : min ≤ max
  default_min : minSecs = 0 → min = .fromSecs 30
  set_min : 5 ≤ minSecs → min = .fromSecs minSecs
  fixed : maxSecs = 0 ∨ ¬ min ≤ .fromSecs maxSecs → max = min
  set_max : maxSecs ≠ 0 → min ≤ .fromSecs maxSecs → max = .fromSecs maxSecs

/-- The minimum of the hop interval in seconds. -/
def intervalMinSecs (minSecs : ℕ) : ℕ :=
  if minSecs = 0 then defaultHopIntervalSecs else max minSecs minHopIntervalSecs

/-- The maximum of the hop interval in seconds. -/
def intervalMaxSecs (minSecs maxSecs : ℕ) : ℕ :=
  if maxSecs = 0 then intervalMinSecs minSecs else max maxSecs (intervalMinSecs minSecs)

theorem hopConfig_eq {ip : IpAddr} {ports : List UInt16}
    (h : hopConfig config ip ports = some cfg) :
    cfg.intervalMin = intervalMinSecs config.hopIntervalMinSecs * 1000 ∧
      cfg.intervalMax =
        intervalMaxSecs config.hopIntervalMinSecs config.hopIntervalMaxSecs * 1000 := by
  by_cases hlen : ports.length ≤ 1
  · rw [hopConfig, if_pos hlen] at h
    exact absurd h (by simp)
  · rw [hopConfig, if_neg hlen] at h
    rw [← Option.some.inj h]
    exact ⟨rfl, rfl⟩

/-- A number of seconds that fits 64 bits. -/
theorem nanos_fromSecs_ofNat {n : ℕ} (h : n < 2 ^ 64) :
    (TimeSpan.fromSecs (.ofNat n)).nanos = n * 1000 * 10 ^ 6 := by
  rw [TimeSpan.nanos_fromSecs, UInt64.toNat_ofNat_of_lt' h]
  ring

theorem intervalMinSecs_bounds (minSecs : UInt64) :
    5 ≤ intervalMinSecs minSecs.toNat ∧ intervalMinSecs minSecs.toNat < 2 ^ 64 := by
  have hminSecs := minSecs.toNat_lt
  rw [intervalMinSecs, defaultHopIntervalSecs, minHopIntervalSecs]
  split_ifs <;> omega

theorem intervalMaxSecs_bounds (minSecs maxSecs : UInt64) :
    intervalMinSecs minSecs.toNat ≤ intervalMaxSecs minSecs.toNat maxSecs.toNat ∧
      intervalMaxSecs minSecs.toNat maxSecs.toNat < 2 ^ 64 := by
  have hmaxSecs := maxSecs.toNat_lt
  have hmin := (intervalMinSecs_bounds minSecs).2
  rw [intervalMaxSecs]
  split_ifs <;> omega

/-- The bounds in seconds follow the settings. -/
theorem follows_intervals (minSecs maxSecs : UInt64) :
    Follows minSecs maxSecs (.fromSecs (.ofNat (intervalMinSecs minSecs.toNat)))
      (.fromSecs (.ofNat (intervalMaxSecs minSecs.toNat maxSecs.toNat))) := by
  obtain ⟨hfloor, hminLt⟩ := intervalMinSecs_bounds minSecs
  obtain ⟨hordered, hmaxLt⟩ := intervalMaxSecs_bounds minSecs maxSecs
  have hminNanos := nanos_fromSecs_ofNat hminLt
  have hmaxNanos := nanos_fromSecs_ofNat hmaxLt
  refine ⟨?_, ?_, ?_, fun hset => ?_, fun hfixed => ?_, fun hne hset => ?_⟩
  · rw [TimeSpan.le_iff, hminNanos, TimeSpan.nanos_fromSecs, show (5 : UInt64).toNat = 5 from rfl]
    omega
  · rw [TimeSpan.le_iff, hminNanos, hmaxNanos]
    omega
  · rintro rfl
    rfl
  · have hset : 5 ≤ minSecs.toNat := UInt64.le_iff_toNat_le.1 hset
    have heq : intervalMinSecs minSecs.toNat = minSecs.toNat := by
      rw [intervalMinSecs, minHopIntervalSecs]
      split_ifs <;> omega
    rw [heq, UInt64.ofNat_toNat]
  · rw [TimeSpan.le_iff, hminNanos, TimeSpan.nanos_fromSecs] at hfixed
    have heq : intervalMaxSecs minSecs.toNat maxSecs.toNat = intervalMinSecs minSecs.toNat := by
      rw [intervalMaxSecs]
      rcases hfixed with rfl | hlt
      · exact if_pos rfl
      · split_ifs <;> omega
    rw [heq]
  · rw [TimeSpan.le_iff, hminNanos, TimeSpan.nanos_fromSecs] at hset
    have hpos : maxSecs.toNat ≠ 0 := fun hzero => hne (UInt64.toNat_inj.1 hzero)
    have heq : intervalMaxSecs minSecs.toNat maxSecs.toNat = maxSecs.toNat := by
      rw [intervalMaxSecs, if_neg hpos]
      omega
    rw [heq, UInt64.ofNat_toNat]

/-- The bounds that the resolution sets. -/
theorem hopConfig_intervals {ip : IpAddr} {ports : List UInt16}
    (h : hopConfig (withIntervals config minSecs maxSecs) ip ports = some cfg) :
    ∃ min max : TimeSpan, min.nanos = cfg.intervalMin * 10 ^ 6 ∧
      max.nanos = cfg.intervalMax * 10 ^ 6 ∧ Follows minSecs maxSecs min max := by
  obtain ⟨hmin, hmax⟩ := hopConfig_eq h
  refine ⟨_, _, ?_, ?_, follows_intervals minSecs maxSecs⟩
  · rw [nanos_fromSecs_ofNat (intervalMinSecs_bounds minSecs).2, hmin]
    rfl
  · rw [nanos_fromSecs_ofNat (intervalMaxSecs_bounds minSecs maxSecs).2, hmax]
    rfl

/-- **Hop intervals respect their bounds.** Whatever the settings are, the resolution sets bounds
that follow them, and every wait of the hop task is computed without a panic and lies between
them. -/
theorem hop_intervals_respect_bounds
    (h : resolveEndpoint lookupHost (withIntervals config minSecs maxSecs) =
      .ok (canonical, some cfg)) :
    ∃ min max : TimeSpan, min.nanos = cfg.intervalMin * 10 ^ 6 ∧
      max.nanos = cfg.intervalMax * 10 ^ 6 ∧ Follows minSecs maxSecs min max ∧
      ∀ r, ∃ wait, hopWait min max r = some wait ∧ min ≤ wait ∧ wait ≤ max := by
  obtain ⟨_, _, _, _, -, -, -, -, -, hhop⟩ := resolveEndpoint_spec h
  obtain ⟨min, max, hmin, hmax, hfollows⟩ := hopConfig_intervals hhop.symm
  exact ⟨min, max, hmin, hmax, hfollows, hopWait_spec hfollows.ordered⟩

/-- A server with two ports, and bounds whose difference in milliseconds does not fit 64 bits. -/
theorem hop_intervals_wide :
    let lookupHost : String → UInt16 → Except IoError (List SocketAddr) :=
      fun _ port => .ok [⟨.v4 0x7f000001, port⟩]
    let config : Config := { serverAddr := "localhost:443", hopPorts := "2-1" }
    let hop : HopConfig :=
      ⟨[⟨.v4 0x7f000001, 1⟩, ⟨.v4 0x7f000001, 2⟩], 7000, 18446744073709551615000⟩
    resolveEndpoint lookupHost (withIntervals config 7 18446744073709551615) =
        .ok (⟨.v4 0x7f000001, 1⟩, some hop) ∧
      ∃ min max : TimeSpan, min.nanos = hop.intervalMin * 10 ^ 6 ∧
        max.nanos = hop.intervalMax * 10 ^ 6 ∧ Follows 7 18446744073709551615 min max ∧
        ∀ r, ∃ wait, hopWait min max r = some wait ∧ min ≤ wait ∧ wait ≤ max := by
  intro lookupHost config hop
  have hresolve : resolveEndpoint lookupHost (withIntervals config 7 18446744073709551615) =
      .ok (⟨.v4 0x7f000001, 1⟩, some hop) := by
    have hhop : hopConfig (withIntervals config 7 18446744073709551615) (.v4 0x7f000001) [1, 2] =
        some hop := by
      simp [hopConfig, withIntervals, minHopIntervalSecs, hop]
    have hspec : portSpec (withIntervals config 7 18446744073709551615) = .ok "2-1" :=
      if_pos (by decide)
    have hlookup : lookupHost (withIntervals config 7 18446744073709551615).hostPart 1 =
        .ok [⟨.v4 0x7f000001, 1⟩] := rfl
    rw [← hhop]
    exact resolveEndpoint_eq hspec parsePorts_two_ports hlookup
  exact ⟨hresolve, hop_intervals_respect_bounds hresolve⟩

end Rsteria.Connect
