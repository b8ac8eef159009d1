import Rsteria.Config

/-!
# The grammar of port specifications

What `parse_ports` of `src/config.rs` accepts, and what it makes of it, in terms of the text alone:
a specification is `all` or `*`, or a list of parts between commas, each of them a number or two
numbers around the first `-`. The ports that are parsed from it are a function of the set of ports
that it stands for (`parsePorts_grammar`).

## Main definitions

* `IsNum` : the texts of a port number.
* `IsPart`, `Covers` : the parts of a specification, and the ports that they stand for.
* `StandsFor` : the ports that a whole specification stands for.
* `SameParts` : the same parts, in any order and number, and with ranges in either direction.

## Main results

* `parsePorts_grammar` : what is accepted, and which ports it stands for.
-/

namespace Rsteria

/-- The text of a port number, with white space around it. -/
def IsNum (text : List Char) (port : UInt16) : Prop := Text.IsUnsigned (Text.trim text) port.toNat

/-- The text of a part: a number, or two numbers around the first `-`. -/
def IsPart (part : List Char) : Prop :=
  (∃ port, IsNum part port) ∨ ∃ a b first last, part = a ++ '-' :: b ∧ '-' ∉ a ∧
    IsNum a first ∧ IsNum b last

/-- The ports that a part stands for: the number, or those between the two numbers. -/
def Covers (part : List Char) (port : UInt16) : Prop :=
  IsNum part port ∨ ∃ a b first last, part = a ++ '-' :: b ∧ '-' ∉ a ∧
    IsNum a first ∧ IsNum b last ∧ (first ≤ port ∧ port ≤ last ∨ last ≤ port ∧ port ≤ first)

/-- The ports that a specification stands for. -/
def StandsFor (spec : String) (port : UInt16) : Prop :=
  spec = "all" ∨ spec = "*" ∨ ∃ part ∈ spec.toList.splitOn ',', Covers part port

/-- The same range in the other direction. -/
def Reversed (part part' : List Char) : Prop :=
  ∃ a b, part = a ++ '-' :: b ∧ part' = b ++ '-' :: a ∧ '-' ∉ a ∧ '-' ∉ b

/-- The same parts, up to their order, repetitions and the directions of ranges. -/
def SameParts (parts parts' : List (List Char)) : Prop :=
  (∀ part ∈ parts, ∃ part' ∈ parts', part = part' ∨ Reversed part part') ∧
    ∀ part' ∈ parts', ∃ part ∈ parts, part = part' ∨ Reversed part part'

variable {part part' : List Char} {parts parts' : List (List Char)} {port : UInt16} {spec : String}

/-! ### One part -/

theorem parseU16_eq_some_iff {s : List Char} :
    parseU16 s = some port ↔ Text.IsUnsigned s port.toNat := by
  rw [parseU16, Option.map_eq_some_iff]
  constructor
  · rintro ⟨n, hn, rfl⟩
    obtain ⟨hs, hle⟩ := Text.parseUnsigned_eq_some_iff.1 hn
    rwa [UInt16.toNat_ofNat_of_lt' (Nat.lt_succ_of_le hle)]
  · intro hs
    refine ⟨port.toNat, Text.parseUnsigned_eq_some_iff.2 ⟨hs, ?_⟩, UInt16.ofNat_toNat⟩
    exact Nat.le_of_lt_succ port.toNat_lt

/-- A number has no `-` in it. -/
theorem IsNum.notMem (h : IsNum part port) : '-' ∉ part := by
  intro hmem
  obtain ⟨sign, digits, htrim, hsign, -, hdigits, -⟩ := h
  have hmem' : '-' ∈ sign ++ digits := htrim ▸ Text.mem_trim_of_mem (by decide) hmem
  rcases List.mem_append.1 hmem' with hmem' | hmem'
  · rcases hsign with rfl | rfl
    · exact absurd hmem' List.not_mem_nil
    · exact absurd hmem' (by decide)
  · exact absurd (hdigits '-' hmem') (by decide)

/-- A range is enclosed by the numbers on the two sides of its first `-`. -/
theorem covers_append {a b : List Char} (ha : '-' ∉ a) :
    Covers (a ++ '-' :: b) port ↔ ∃ first last, IsNum a first ∧ IsNum b last ∧
      (first ≤ port ∧ port ≤ last ∨ last ≤ port ∧ port ≤ first) := by
  constructor
  · rintro (hnum | ⟨a', b', first, last, heq, ha', hfirst, hlast, hport⟩)
    · exact absurd List.mem_append_cons_self hnum.notMem
    · have hsplit := Text.splitOnce_append ha b
      rw [heq, Text.splitOnce_append ha'] at hsplit
      obtain ⟨rfl, rfl⟩ := Prod.mk.inj (Option.some.inj hsplit)
      exact ⟨first, last, hfirst, hlast, hport⟩
  · rintro ⟨first, last, hfirst, hlast, hport⟩
    exact .inr ⟨a, b, first, last, rfl, ha, hfirst, hlast, hport⟩

theorem partDenotes_iff : PartDenotes part port ↔ Covers part port := by
  rw [PartDenotes]
  cases hsplit : Text.splitOnce '-' part with
  | some ends =>
    obtain ⟨a, b⟩ := ends
    obtain ⟨rfl, ha⟩ := Text.splitOnce_eq_some_iff.1 hsplit
    simp only [parseU16_eq_some_iff, covers_append ha, IsNum]
  | none =>
    have hpart := Text.splitOnce_eq_none_iff.1 hsplit
    simp only [parseU16_eq_some_iff]
    constructor
    · exact .inl
    · rintro (hnum | ⟨a, b, first, last, rfl, -⟩)
      · exact hnum
      · exact absurd List.mem_append_cons_self hpart

/-- A range has its first end in it. -/
theorem enclosed_left (first last : UInt16) :
    first ≤ first ∧ first ≤ last ∨ last ≤ first ∧ first ≤ first := by
  rcases UInt16.le_total first last with hle | hle
  · exact .inl ⟨UInt16.le_refl _, hle⟩
  · exact .inr ⟨hle, UInt16.le_refl _⟩

/-- A part stands for some port exactly when it is in the grammar. -/
theorem exists_covers_iff : (∃ port, Covers part port) ↔ IsPart part := by
  constructor
  · rintro ⟨port, hnum | ⟨a, b, first, last, heq, ha, hfirst, hlast, -⟩⟩
    · exact .inl ⟨port, hnum⟩
    · exact .inr ⟨a, b, first, last, heq, ha, hfirst, hlast⟩
  · rintro (⟨port, hnum⟩ | ⟨a, b, first, last, heq, ha, hfirst, hlast⟩)
    · exact ⟨port, .inl hnum⟩
    · exact ⟨first, .inr ⟨a, b, first, last, heq, ha, hfirst, hlast, enclosed_left first last⟩⟩

/-- A part that stands for a port is parsed. -/
theorem isSome_parsePart (h : PartDenotes part port) : (parsePart part).isSome = true := by
  rw [PartDenotes] at h
  rw [parsePart]
  cases hsplit : Text.splitOnce '-' part with
  | some ends =>
    obtain ⟨a, b⟩ := ends
    rw [hsplit] at h
    obtain ⟨first, last, hfirst, hlast, -⟩ := h
    simp [hfirst, hlast]
  | none =>
    rw [hsplit] at h
    simp [show parseU16 (Text.trim part) = some port from h]

/-- The ports of a part are not empty. -/
theorem exists_partDenotes {ports : List UInt16} (h : parsePart part = some ports) :
    ∃ port, PartDenotes part port := by
  rw [parsePart] at h
  cases hsplit : Text.splitOnce '-' part with
  | some ends =>
    obtain ⟨a, b⟩ := ends
    rw [hsplit] at h
    simp only [Option.bind_eq_bind, Option.bind_eq_some_iff] at h
    obtain ⟨first, hfirst, last, hlast, -⟩ := h
    refine ⟨first, ?_⟩
    rw [PartDenotes, hsplit]
    exact ⟨first, last, hfirst, hlast, enclosed_left first last⟩
  | none =>
    rw [hsplit] at h
    simp only [Option.bind_eq_bind, Option.bind_eq_some_iff] at h
    obtain ⟨port, hport, -⟩ := h
    exact ⟨port, by rw [PartDenotes, hsplit]; exact hport⟩

/-- What is parsed as a part. -/
theorem isSome_parsePart_iff : (parsePart part).isSome = true ↔ IsPart part := by
  rw [← exists_covers_iff]
  constructor
  · intro h
    obtain ⟨ports, hports⟩ := Option.isSome_iff_exists.1 h
    obtain ⟨port, hport⟩ := exists_partDenotes hports
    exact ⟨port, partDenotes_iff.1 hport⟩
  · rintro ⟨port, hport⟩
    exact isSome_parsePart (partDenotes_iff.2 hport)

/-! ### The whole specification -/

theorem denotes_iff : Denotes spec port ↔ StandsFor spec port := by
  simp only [Denotes, StandsFor, partDenotes_iff]

/-- The loop succeeds exactly when every part is in the grammar. -/
theorem isSome_parseParts_iff (found : List UInt16) :
    (parseParts parts found).isSome = true ↔ ∀ part ∈ parts, IsPart part := by
  induction parts generalizing found with
  | nil => simp [parseParts]
  | cons part parts ih =>
    rw [parseParts, List.forall_mem_cons, ← isSome_parsePart_iff, Option.bind_eq_bind]
    cases hpart : parsePart part with
    | none => simp
    | some more => simp [ih]

/-- What is parsed as a specification. -/
theorem isSome_parsePorts_iff :
    (parsePorts spec).isSome = true ↔
      spec = "all" ∨ spec = "*" ∨ ∀ part ∈ spec.toList.splitOn ',', IsPart part := by
  rw [parsePorts, ← or_assoc]
  by_cases hall : spec = "all" ∨ spec = "*"
  · simp [hall]
  rw [if_neg hall, or_iff_right hall, ← isSome_parseParts_iff [], Option.bind_eq_bind]
  cases hparts : parseParts (spec.toList.splitOn ',') [] with
  | none => simp
  | some ports =>
    -- There is at least one part, and every part has a port.
    have hne : ports ≠ [] := by
      obtain ⟨part, hpart⟩ := List.exists_mem_of_ne_nil _ (List.splitOn_ne_nil ',' spec.toList)
      have hsome : (parseParts (spec.toList.splitOn ',') []).isSome = true := by simp [hparts]
      obtain ⟨port, hport⟩ := exists_covers_iff.2 ((isSome_parseParts_iff []).1 hsome part hpart)
      refine List.ne_nil_of_mem (a := port) ((mem_parseParts hparts port).2 (.inr ?_))
      exact ⟨part, hpart, partDenotes_iff.2 hport⟩
    simp [hne]

/-- A list in strictly increasing order is determined by its elements. -/
theorem eq_of_mem_iff {ports ports' : List UInt16} (h : ports.Pairwise (· < ·))
    (h' : ports'.Pairwise (· < ·)) (hmem : ∀ port, port ∈ ports ↔ port ∈ ports') :
    ports = ports' := by
  have hperm : ports.Perm ports' := by
    refine (List.perm_ext_iff_of_nodup (h.imp ?_) (h'.imp ?_)).2 hmem
    · exact UInt16.ne_of_lt
    · exact UInt16.ne_of_lt
  refine hperm.eq_of_pairwise (fun a b _ _ hab hba => ?_) h h'
  exact absurd hba (UInt16.lt_asymm hab)

/-- The ports that are parsed depend only on the ports that the specification stands for. -/
theorem parsePorts_congr {spec' : String} {ports ports' : List UInt16}
    (h : parsePorts spec = some ports) (h' : parsePorts spec' = some ports')
    (hsame : ∀ port, StandsFor spec port ↔ StandsFor spec' port) : ports = ports' := by
  obtain ⟨hmem, hsorted, -⟩ := parsePorts_spec h
  obtain ⟨hmem', hsorted', -⟩ := parsePorts_spec h'
  exact eq_of_mem_iff hsorted hsorted' fun port => by
    rw [hmem, hmem', denotes_iff, denotes_iff, hsame]

/-! ### Port zero -/

/-- A specification names port zero: as one of all ports, as a number or as an end of a range. -/
def NamesZero (spec : String) : Prop :=
  spec = "all" ∨ spec = "*" ∨ ∃ part ∈ spec.toList.splitOn ',', IsNum part 0 ∨
    ∃ a b, part = a ++ '-' :: b ∧ '-' ∉ a ∧ (IsNum a 0 ∨ IsNum b 0)

/-- A part covers port zero if it is zero or a range with an end at zero. -/
theorem covers_zero_iff (h : IsPart part) :
    Covers part 0 ↔ IsNum part 0 ∨
      ∃ a b, part = a ++ '-' :: b ∧ '-' ∉ a ∧ (IsNum a 0 ∨ IsNum b 0) := by
  have hzero (port : UInt16) : 0 ≤ port := UInt16.le_iff_toNat_le.2 (Nat.zero_le _)
  constructor
  · rintro (hnum | ⟨a, b, first, last, heq, ha, hfirst, hlast, hport⟩)
    · exact .inl hnum
    refine .inr ⟨a, b, heq, ha, ?_⟩
    rcases hport with ⟨hle, -⟩ | ⟨hle, -⟩
    · obtain rfl := UInt16.le_antisymm hle (hzero first)
      exact .inl hfirst
    · obtain rfl := UInt16.le_antisymm hle (hzero last)
      exact .inr hlast
  · rintro (hnum | ⟨a, b, rfl, ha, hends⟩)
    · exact .inl hnum
    obtain ⟨port, hport⟩ := exists_covers_iff.2 h
    obtain ⟨first, last, hfirst, hlast, -⟩ := (covers_append ha).1 hport
    rw [covers_append ha]
    rcases hends with hnum | hnum
    · exact ⟨0, last, hnum, hlast, .inl ⟨UInt16.le_refl 0, hzero last⟩⟩
    · exact ⟨first, 0, hfirst, hnum, .inr ⟨UInt16.le_refl 0, hzero first⟩⟩

/-- Port zero is parsed from a specification exactly when it is named. -/
theorem standsFor_zero_iff (h : (parsePorts spec).isSome = true) :
    StandsFor spec 0 ↔ NamesZero spec := by
  rcases isSome_parsePorts_iff.1 h with rfl | rfl | hparts
  · exact iff_of_true (.inl rfl) (.inl rfl)
  · exact iff_of_true (.inr (.inl rfl)) (.inr (.inl rfl))
  · refine or_congr_right (or_congr_right (exists_congr fun part => ?_))
    exact and_congr_right fun hpart => covers_zero_iff (hparts part hpart)

/-! ### Order, repetition and direction -/

/-- A range covers the same ports in the other direction. -/
theorem Covers.reversed {a b : List Char} (ha : '-' ∉ a) (hb : '-' ∉ b)
    (h : Covers (a ++ '-' :: b) port) : Covers (b ++ '-' :: a) port := by
  obtain ⟨first, last, hfirst, hlast, hport⟩ := (covers_append ha).1 h
  exact (covers_append hb).2 ⟨last, first, hlast, hfirst, hport.symm⟩

theorem covers_congr (h : part = part' ∨ Reversed part part') :
    Covers part port ↔ Covers part' port := by
  rcases h with rfl | ⟨a, b, rfl, rfl, ha, hb⟩
  · exact Iff.rfl
  · exact ⟨fun hport => hport.reversed ha hb, fun hport => hport.reversed hb ha⟩

theorem isPart_congr (h : part = part' ∨ Reversed part part') : IsPart part ↔ IsPart part' := by
  rw [← exists_covers_iff, ← exists_covers_iff]
  exact exists_congr fun port => covers_congr h

theorem SameParts.forall_isPart (h : SameParts parts parts') :
    (∀ part ∈ parts, IsPart part) ↔ ∀ part' ∈ parts', IsPart part' := by
  constructor
  · intro hparts part' hpart'
    obtain ⟨part, hpart, heq⟩ := h.2 part' hpart'
    exact (isPart_congr heq).1 (hparts part hpart)
  · intro hparts' part hpart
    obtain ⟨part', hpart', heq⟩ := h.1 part hpart
    exact (isPart_congr heq).2 (hparts' part' hpart')

theorem SameParts.exists_covers (h : SameParts parts parts') :
    (∃ part ∈ parts, Covers part port) ↔ ∃ part' ∈ parts', Covers part' port := by
  constructor
  · rintro ⟨part, hpart, hport⟩
    obtain ⟨part', hpart', heq⟩ := h.1 part hpart
    exact ⟨part', hpart', (covers_congr heq).1 hport⟩
  · rintro ⟨part', hpart', hport⟩
    obtain ⟨part, hpart, heq⟩ := h.2 part' hpart'
    exact ⟨part, hpart, (covers_congr heq).2 hport⟩

/-- The order and the repetition of parts and the direction of ranges do not matter. -/
theorem parsePorts_of_sameParts {spec' : String} (hspec : ¬ (spec = "all" ∨ spec = "*"))
    (hspec' : ¬ (spec' = "all" ∨ spec' = "*"))
    (h : SameParts (spec.toList.splitOn ',') (spec'.toList.splitOn ',')) :
    parsePorts spec = parsePorts spec' := by
  have hsame (port : UInt16) : StandsFor spec port ↔ StandsFor spec' port := by
    rw [StandsFor, StandsFor, ← or_assoc, ← or_assoc, or_iff_right hspec, or_iff_right hspec']
    exact h.exists_covers
  have hsome : (parsePorts spec).isSome = true ↔ (parsePorts spec').isSome = true := by
    rw [isSome_parsePorts_iff, isSome_parsePorts_iff, ← or_assoc, ← or_assoc,
      or_iff_right hspec, or_iff_right hspec']
    exact h.forall_isPart
  cases hports : parsePorts spec with
  | none =>
    cases hports' : parsePorts spec' with
    | none => rfl
    | some ports' => simp [hports, hports'] at hsome
  | some ports =>
    cases hports' : parsePorts spec' with
    | none => simp [hports, hports'] at hsome
    | some ports' => rw [parsePorts_congr hports hports' hsame]

/-- A specification is parsed exactly when it is `all` or `*` or every part of it is a number or a
range; the list that is parsed holds the ports that it stands for, each once and in increasing
order. The order and the repetition of parts and the direction of ranges do not matter, and neither
does how parts overlap: two specifications that stand for the same ports are parsed alike. -/
theorem parsePorts_grammar (spec : String) :
    ((parsePorts spec).isSome = true ↔
      spec = "all" ∨ spec = "*" ∨ ∀ part ∈ spec.toList.splitOn ',', IsPart part) ∧
    (∀ ports, parsePorts spec = some ports → ports ≠ [] ∧ ports.Pairwise (· < ·) ∧
      ∀ port, port ∈ ports ↔ StandsFor spec port) ∧
    (∀ spec' : String, ¬ (spec = "all" ∨ spec = "*") → ¬ (spec' = "all" ∨ spec' = "*") →
      SameParts (spec.toList.splitOn ',') (spec'.toList.splitOn ',') →
      parsePorts spec = parsePorts spec') ∧
    ∀ (spec' : String) (ports ports' : List UInt16), parsePorts spec = some ports →
      parsePorts spec' = some ports' → (∀ port, StandsFor spec port ↔ StandsFor spec' port) →
      ports = ports' := by
  refine ⟨isSome_parsePorts_iff, fun ports hports => ?_, fun spec' => parsePorts_of_sameParts,
    fun spec' ports ports' => parsePorts_congr⟩
  obtain ⟨hmem, hsorted, hne⟩ := parsePorts_spec hports
  exact ⟨hne, hsorted, fun port => (hmem port).trans denotes_iff⟩

end Rsteria
