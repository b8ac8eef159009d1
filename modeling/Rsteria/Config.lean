import Mathlib.Data.List.Basic
import Rsteria.Lib.Text

/-!
# Configuration

`Config` of `src/config.rs`, as far as the modelled parts of the client read it, and the parser of
port specifications. A specification is a comma-separated list of ports and of ranges of ports, in
either order, or stands for all ports; the ports that it denotes are defined on its text
(`Denotes`), and the list that is parsed from it holds each of them once, in increasing order
(`parsePorts_spec`).

## Main definitions

* `Config`, `Config.hostPart`.
* `parsePorts`.
* `Denotes` : the ports that a specification denotes.

## Main results

* `parsePorts_spec` : the ports that are parsed.
-/

namespace Rsteria

/-- The client configuration. Rates are in bytes per second, hop intervals in seconds. -/
structure Config where
  serverAddr : String := ""
  txBps : UInt64 := 0
  obfsPassword : String := ""
  hopPorts : String := ""
  hopIntervalMinSecs : ℕ := 0
  hopIntervalMaxSecs : ℕ := 0
  deriving DecidableEq, Repr

/-- The host portion of the server address: everything before the last `:`. -/
def Config.hostPart (config : Config) : String :=
  match Text.rsplitOnce ':' config.serverAddr.toList with
  | some (host, _) => String.ofList host
  | none => config.serverAddr

/-! ### Port specifications -/

/-- `str::parse::<u16>`. -/
def parseU16 (s : List Char) : Option UInt16 := (Text.parseUnsigned 65535 s).map UInt16.ofNat

/-- The ports from `start` to `end`, both included. -/
def portRange (first last : UInt16) : List UInt16 :=
  (List.range' first.toNat (last.toNat + 1 - first.toNat)).map UInt16.ofNat

/-- The ports of one part of a specification. -/
def parsePart (part : List Char) : Option (List UInt16) :=
  match Text.splitOnce '-' part with
  | some (a, b) => do
    let first ← parseU16 (Text.trim a)
    let last ← parseU16 (Text.trim b)
    let (first, last) := if first > last then (last, first) else (first, last)
    return portRange first last
  | none => do
    let port ← parseU16 (Text.trim part)
    return [port]

/-- The loop over the parts of a specification, with the ports found so far. -/
def parseParts : List (List Char) → List UInt16 → Option (List UInt16)
  | [], ports => some ports
  | part :: parts, ports => do
    let more ← parsePart part
    parseParts parts (ports ++ more)

/-- `Vec::dedup`: of equal elements in a row, keep one. -/
def dedup : List UInt16 → List UInt16
  | a :: b :: l => if a = b then dedup (b :: l) else a :: dedup (b :: l)
  | l => l

/-- Parse a port specification into a sorted list of ports without duplicates; `none` if it is
malformed. -/
def parsePorts (spec : String) : Option (List UInt16) :=
  if spec = "all" ∨ spec = "*" then some (portRange 0 65535)
  else do
    let ports ← parseParts (spec.toList.splitOn ',') []
    if ports.isEmpty then none
    else some (dedup (ports.mergeSort fun a b => decide (a ≤ b)))

/-- One part of a specification denotes a port: it is the port, or a range that contains it. -/
def PartDenotes (part : List Char) (port : UInt16) : Prop :=
  match Text.splitOnce '-' part with
  | some (a, b) => ∃ first last, parseU16 (Text.trim a) = some first ∧
    parseU16 (Text.trim b) = some last ∧
    (first ≤ port ∧ port ≤ last ∨ last ≤ port ∧ port ≤ first)
  | none => parseU16 (Text.trim part) = some port

/-- A specification denotes a port. -/
def Denotes (spec : String) (port : UInt16) : Prop :=
  spec = "all" ∨ spec = "*" ∨ ∃ part ∈ spec.toList.splitOn ',', PartDenotes part port

theorem mem_portRange {first last port : UInt16} :
    port ∈ portRange first last ↔ first ≤ port ∧ port ≤ last := by
  rw [portRange, List.mem_map, UInt16.le_iff_toNat_le, UInt16.le_iff_toNat_le]
  constructor
  · rintro ⟨n, hn, rfl⟩
    rw [List.mem_range'_1] at hn
    have hlast := last.toNat_lt
    have hsize : n < 2 ^ 16 := by omega
    rw [UInt16.toNat_ofNat_of_lt' hsize]
    omega
  · rintro ⟨hfirst, hlast⟩
    exact ⟨port.toNat, List.mem_range'_1.2 (by omega), UInt16.ofNat_toNat⟩

theorem mem_dedup {ports : List UInt16} {port : UInt16} : port ∈ dedup ports ↔ port ∈ ports := by
  induction ports using dedup.induct with
  | case1 a l ih =>
    rw [dedup, if_pos rfl, ih]
    simp
  | case2 a b l hne ih => rw [dedup, if_neg hne, List.mem_cons, ih, ← List.mem_cons]
  | case3 l hl => rw [dedup.eq_2 l hl]

theorem pairwise_dedup {ports : List UInt16} (h : ports.Pairwise (· ≤ ·)) :
    (dedup ports).Pairwise (· < ·) := by
  induction ports using dedup.induct with
  | case1 a l ih =>
    rw [dedup, if_pos rfl]
    exact ih h.tail
  | case2 a b l hne ih =>
    rw [dedup, if_neg hne, List.pairwise_cons]
    obtain ⟨ha, hl⟩ := List.pairwise_cons.1 h
    refine ⟨fun port hport => ?_, ih hl⟩
    have hab : a < b := UInt16.lt_of_le_of_ne (ha b List.mem_cons_self) hne
    rcases List.mem_cons.1 (mem_dedup.1 hport) with rfl | hport
    · exact hab
    · exact UInt16.lt_of_lt_of_le hab ((List.pairwise_cons.1 hl).1 port hport)
  | case3 l hl =>
    match l, hl with
    | [], _ => exact List.Pairwise.nil
    | [a], _ => exact List.pairwise_singleton _ a
    | a :: b :: l, hl => exact absurd rfl (hl a b l)

/-- The ports of one part. -/
theorem mem_parsePart {part : List Char} {ports : List UInt16} (h : parsePart part = some ports)
    (port : UInt16) : port ∈ ports ↔ PartDenotes part port := by
  rw [parsePart] at h
  rw [PartDenotes]
  cases hsplit : Text.splitOnce '-' part with
  | some ends =>
    obtain ⟨a, b⟩ := ends
    rw [hsplit] at h
    simp only [Option.bind_eq_bind, Option.bind_eq_some_iff] at h ⊢
    obtain ⟨first, hfirst, last, hlast, h⟩ := h
    have hdenotes : (∃ first' last', some first = some first' ∧ some last = some last' ∧
        (first' ≤ port ∧ port ≤ last' ∨ last' ≤ port ∧ port ≤ first')) ↔
        (first ≤ port ∧ port ≤ last ∨ last ≤ port ∧ port ≤ first) := by simp
    rw [hfirst, hlast, hdenotes]
    split_ifs at h with hgt
    · rw [← Option.some.inj h, mem_portRange]
      simp only [gt_iff_lt, UInt16.lt_iff_toNat_lt, UInt16.le_iff_toNat_le] at hgt ⊢
      omega
    · rw [← Option.some.inj h, mem_portRange]
      simp only [gt_iff_lt, UInt16.lt_iff_toNat_lt, UInt16.le_iff_toNat_le] at hgt ⊢
      omega
  | none =>
    rw [hsplit] at h
    simp only [Option.bind_eq_bind, Option.bind_eq_some_iff] at h ⊢
    obtain ⟨only, honly, h⟩ := h
    rw [honly, ← Option.some.inj h, List.mem_singleton, Option.some.injEq, eq_comm]

/-- The ports that the loop has found. -/
theorem mem_parseParts {parts : List (List Char)} {found ports : List UInt16}
    (h : parseParts parts found = some ports) (port : UInt16) :
    port ∈ ports ↔ port ∈ found ∨ ∃ part ∈ parts, PartDenotes part port := by
  induction parts generalizing found with
  | nil =>
    rw [← Option.some.inj h]
    simp
  | cons part parts ih =>
    rw [parseParts, Option.bind_eq_bind, Option.bind_eq_some_iff] at h
    obtain ⟨more, hmore, h⟩ := h
    rw [ih h, List.mem_append, mem_parsePart hmore]
    simp only [List.mem_cons, exists_eq_or_imp, or_assoc]

theorem pairwise_portRange (first last : UInt16) : (portRange first last).Pairwise (· < ·) := by
  have hlast := last.toNat_lt
  rw [portRange, List.pairwise_map]
  refine List.Pairwise.imp_of_mem (fun {m n} hm hn hlt => ?_) List.pairwise_lt_range'
  rw [List.mem_range'_1] at hm hn
  have hm : m < 2 ^ 16 := by omega
  have hn : n < 2 ^ 16 := by omega
  rw [UInt16.lt_iff_toNat_lt, UInt16.toNat_ofNat_of_lt' hm, UInt16.toNat_ofNat_of_lt' hn]
  exact hlt

/-- The ports that are parsed are those that the specification denotes, each once, in increasing
order. -/
theorem parsePorts_spec {spec : String} {ports : List UInt16} (h : parsePorts spec = some ports) :
    (∀ port, port ∈ ports ↔ Denotes spec port) ∧ ports.Pairwise (· < ·) ∧ ports ≠ [] := by
  rw [parsePorts] at h
  split_ifs at h with hall
  · rw [← Option.some.inj h]
    refine ⟨fun port => iff_of_true ?_ ?_, pairwise_portRange 0 65535, ?_⟩
    · exact mem_portRange.2 ⟨UInt16.le_iff_toNat_le.2 (Nat.zero_le _),
        UInt16.le_iff_toNat_le.2 (Nat.le_of_lt_succ port.toNat_lt)⟩
    · exact hall.imp_right .inl
    · exact List.ne_nil_of_mem (mem_portRange.2 ⟨UInt16.le_refl 0, by decide⟩)
  · rw [Option.bind_eq_bind, Option.bind_eq_some_iff] at h
    obtain ⟨found, hfound, h⟩ := h
    split_ifs at h with hempty
    have hsorted : (found.mergeSort fun a b => decide (a ≤ b)).Pairwise (· ≤ ·) := by
      refine (List.pairwise_mergeSort (fun a b c hab hbc => ?_) (fun a b => ?_) found).imp
        of_decide_eq_true
      · exact decide_eq_true
          (UInt16.le_trans (of_decide_eq_true hab) (of_decide_eq_true hbc))
      · simpa using UInt16.le_total a b
    have hmem (port : UInt16) : port ∈ ports ↔ port ∈ found := by
      rw [← Option.some.inj h, mem_dedup, (List.mergeSort_perm _ _).mem_iff]
    refine ⟨fun port => ?_, ?_, ?_⟩
    · rw [hmem, mem_parseParts hfound, Denotes]
      simp only [List.not_mem_nil, false_or]
      rw [← or_assoc, or_iff_right hall]
    · rw [← Option.some.inj h]
      exact pairwise_dedup hsorted
    · obtain ⟨port, hport⟩ := List.exists_mem_of_ne_nil found (by simpa using hempty)
      exact List.ne_nil_of_mem ((hmem port).2 hport)

end Rsteria
