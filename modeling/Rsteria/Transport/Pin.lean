import Mathlib.Data.List.FinRange
import Rsteria.Lib.Utf8
import Rsteria.Transport.Tls

/-!
# Certificate pins

`parse_pin` of `src/transport/tls.rs` reads the digest of a pinned certificate from its hexadecimal
text. White space and colons are left out; what remains must be 64 bytes long, and each two bytes of
it are sliced out and read as a number. The result is `none` where the program panics.

A slice panics when it cuts a character, which happens only if every slice before it was read: the
text returns a result unless its first character outside ASCII is met in front of the first pair
that is no number, and is cut (`parsePin_returns_iff`). The number reader takes a plus sign in front
of a digit, so an accepted text spells the digest exactly if it has no plus sign
(`parsePin_spells_iff`). In the other direction, whatever spells the digest is accepted, with digits
in upper or lower case and separators anywhere (`Renders`).

## Main definitions

* `Transport.Tls.parsePin`.
* `Transport.Tls.CutsCharacter` : a slice cuts a character.
* `Transport.Tls.Spells` : the text is the hexadecimal spelling of the digest.
* `Transport.Tls.Renders` : the texts of hexadecimal digits, with separators.

## Main results

* `Transport.Tls.parsePin_returns_iff` : when a result is returned.
* `Transport.Tls.parsePin_spells_iff` : when an accepted text is a hexadecimal digest.
* `Transport.Tls.parsePin_of_spells` : a text that spells a digest is accepted.
-/

namespace Rsteria.Transport.Tls

/-- The characters of a pin that are not separators. -/
def pinChars (s : String) : List Char :=
  s.toList.filter fun c => !Text.isWhitespace c && c != ':'

/-- The byte at position `i` of a pin; the slice panics if it cuts a character. -/
def pinByte (hex : List Char) (i : ℕ) : Option (Except Error UInt8) :=
  (Text.sliceBytes? hex (i * 2) (i * 2 + 2)).map fun pair =>
    match Text.fromStrRadix 16 255 pair with
    | some byte => .ok (UInt8.ofNat byte)
    | none => .error (.config "pin_sha256 is not valid hex")

/-- The loop over the bytes of a pin. -/
def pinLoop (hex : List Char) : List (Fin 32) → Digest256 → Option (Except Error Digest256)
  | [], out => some (.ok out)
  | i :: is, out =>
    match pinByte hex i with
    | some (.ok byte) => pinLoop hex is (out.set i byte)
    | some (.error e) => some (.error e)
    | none => none

/-- Parse a pin: hexadecimal with optional colons and white space. The empty text is no pin. -/
def parsePin (s : String) : Option (Except Error (Option Digest256)) :=
  if s = "" then some (.ok none)
  else if Text.byteLen (pinChars s) ≠ 64 then
    some (.error (.config "pin_sha256 must be 32 bytes (64 hex chars)"))
  else
    (pinLoop (pinChars s) (List.finRange 32) (Vector.replicate 32 0)).map (Except.map some)

variable {hex front rest : List Char} {i : ℕ} {byte : UInt8} {s : String} {pin : Digest256}

/-! ### The loop -/

/-- The loop panics at the first byte that panics, if all bytes before it are read. -/
theorem pinLoop_eq_none_iff {is : List (Fin 32)} (hsorted : is.Pairwise (· < ·)) {out : Digest256} :
    pinLoop hex is out = none ↔ ∃ i ∈ is, pinByte hex i = none ∧
      ∀ j ∈ is, j < i → ∃ byte, pinByte hex j = some (.ok byte) := by
  induction is generalizing out with
  | nil => simp [pinLoop]
  | cons i is ih =>
    obtain ⟨hlt, hsorted⟩ := List.pairwise_cons.1 hsorted
    rw [pinLoop]
    constructor
    · intro h
      cases hbyte : pinByte hex i with
      | none =>
        refine ⟨i, List.mem_cons_self, hbyte, fun j hj hji => ?_⟩
        rcases List.mem_cons.1 hj with rfl | hj
        · exact absurd hji (lt_irrefl j)
        · exact absurd (hlt j hj) (lt_asymm hji)
      | some result =>
        cases result with
        | error e => simp [hbyte] at h
        | ok byte =>
          rw [hbyte] at h
          obtain ⟨k, hk, hnone, hread⟩ := (ih hsorted).1 h
          refine ⟨k, List.mem_cons_of_mem i hk, hnone, fun j hj hjk => ?_⟩
          rcases List.mem_cons.1 hj with rfl | hj
          · exact ⟨byte, hbyte⟩
          · exact hread j hj hjk
    · rintro ⟨k, hk, hnone, hread⟩
      rcases List.mem_cons.1 hk with rfl | hk
      · rw [hnone]
      · obtain ⟨byte, hbyte⟩ := hread i List.mem_cons_self (hlt k hk)
        rw [hbyte]
        exact (ih hsorted).2 ⟨k, hk, hnone, fun j hj => hread j (List.mem_cons_of_mem i hj)⟩

/-- The loop returns the bytes that are read. -/
theorem pinLoop_eq_ok_iff {is : List (Fin 32)} (hnodup : is.Nodup) {out : Digest256} :
    pinLoop hex is out = some (.ok pin) ↔
      (∀ i ∈ is, pinByte hex i = some (.ok pin[i])) ∧ ∀ i : Fin 32, i ∉ is → pin[i] = out[i] := by
  induction is generalizing out with
  | nil =>
    simp only [pinLoop, Option.some.injEq, Except.ok.injEq, List.not_mem_nil, false_imp_iff,
      implies_true, not_false_eq_true, true_and, forall_const]
    constructor
    · rintro rfl i
      rfl
    · intro h
      refine Vector.ext fun i hi => (h ⟨i, hi⟩).symm
  | cons i is ih =>
    obtain ⟨hi, hnodup⟩ := List.nodup_cons.1 hnodup
    rw [pinLoop, List.forall_mem_cons]
    cases hbyte : pinByte hex i with
    | none => simp
    | some result =>
      cases result with
      | error e => simp
      | ok byte =>
        simp only [ih hnodup, Option.some.injEq, Except.ok.injEq]
        constructor
        · rintro ⟨hread, hkeep⟩
          have hset := hkeep i hi
          refine ⟨⟨by simpa using hset.symm, hread⟩, fun j hj => ?_⟩
          obtain ⟨hji, hj⟩ := not_or.1 (mt List.mem_cons.2 hj)
          have hne : (i : ℕ) ≠ j := fun heq => hji (Fin.ext heq.symm)
          simpa [hne] using hkeep j hj
        · rintro ⟨⟨hpin, hread⟩, hkeep⟩
          refine ⟨hread, fun j hj => ?_⟩
          by_cases hji : j = i
          · subst hji
            simpa using hpin.symm
          · have hne : (i : ℕ) ≠ j := fun heq => hji (Fin.ext heq.symm)
            have hout := hkeep j (by simp [hji, hj])
            simpa [hne] using hout

/-! ### One byte -/

/-- Two characters that are read as a byte. -/
def ReadsByte (pair : List Char) (byte : UInt8) : Prop :=
  ∃ n, Text.fromStrRadix 16 255 pair = some n ∧ UInt8.ofNat n = byte

/-- A byte is read at two one-byte characters, from its offset on. -/
theorem pinByte_eq_ok_iff :
    pinByte hex i = some (.ok byte) ↔ ∃ front x y rest, hex = front ++ ([x, y] ++ rest) ∧
      Text.byteLen front = i * 2 ∧ x.utf8Size = 1 ∧ y.utf8Size = 1 ∧ ReadsByte [x, y] byte := by
  rw [pinByte, Option.map_eq_some_iff]
  constructor
  · rintro ⟨pair, hslice, hread⟩
    obtain ⟨front, rest, rfl, hfront, hpair⟩ :=
      (Text.sliceBytes?_eq_some_iff (Nat.le_add_right _ 2)).1 hslice
    have hlen : Text.byteLen pair = 2 := by omega
    cases hn : Text.fromStrRadix 16 255 pair with
    | none => simp [hn] at hread
    | some n =>
      rw [hn] at hread
      obtain ⟨x, y, rfl, hx, hy⟩ := Text.fromStrRadix_of_byteLen hlen hn
      exact ⟨front, x, y, rest, rfl, hfront, hx, hy, n, hn, Except.ok.inj hread⟩
  · rintro ⟨front, x, y, rest, rfl, hfront, hx, hy, n, hn, rfl⟩
    refine ⟨[x, y], ?_, by rw [hn]⟩
    refine (Text.sliceBytes?_eq_some_iff (Nat.le_add_right _ 2)).2 ⟨front, rest, rfl, hfront, ?_⟩
    simp only [Text.byteLen_cons, Text.byteLen_nil, hx, hy]
    omega

/-- A slice panics if no two bytes stand between two characters at its offset. -/
theorem pinByte_eq_none_iff (hfront : Text.byteLen front = i * 2) :
    pinByte (front ++ rest) i = none ↔
      ∀ pair after, rest = pair ++ after → Text.byteLen pair ≠ 2 := by
  rw [pinByte, Option.map_eq_none_iff, Option.eq_none_iff_forall_ne_some]
  constructor
  · rintro h pair after rfl hpair
    refine h pair ((Text.sliceBytes?_eq_some_iff (Nat.le_add_right _ 2)).2 ?_)
    exact ⟨front, after, rfl, hfront, by omega⟩
  · intro h pair hslice
    obtain ⟨front', after, heq, hfront', hpair⟩ :=
      (Text.sliceBytes?_eq_some_iff (Nat.le_add_right _ 2)).1 hslice
    obtain ⟨-, rfl⟩ := Text.append_inj_of_byteLen heq (hfront.trans hfront'.symm)
    exact h pair after rfl (by omega)

/-- The two characters of byte `i`, behind a front of one-byte characters. -/
theorem pinByte_append_iff (hfront : front.length = i * 2) (hascii : ∀ c ∈ front, c.utf8Size = 1)
    {x y : Char} (hx : x.utf8Size = 1) (hy : y.utf8Size = 1) :
    pinByte (front ++ ([x, y] ++ rest)) i = some (.ok byte) ↔ ReadsByte [x, y] byte := by
  have hlen : Text.byteLen front = i * 2 := (Text.byteLen_eq_length hascii).trans hfront
  rw [pinByte_eq_ok_iff]
  constructor
  · rintro ⟨front', x', y', rest', heq, hfront', -, -, hread⟩
    obtain ⟨-, heq⟩ := Text.append_inj_of_byteLen heq (hlen.trans hfront'.symm)
    obtain ⟨hpair, -⟩ := List.append_inj heq rfl
    rwa [hpair]
  · intro hread
    exact ⟨front, x, y, rest, rfl, hlen, hx, hy, hread⟩

/-! ### The characters in front of a byte -/

/-- The complete pairs of characters of a text are read. -/
def PairsRead (front : List Char) : Prop :=
  ∀ before x y after, front = before ++ ([x, y] ++ after) → 2 ∣ before.length →
    ∃ byte, ReadsByte [x, y] byte

/-- If the first `i` bytes are read, `2 * i` one-byte characters stand in front of the next. -/
theorem exists_front (h : ∀ j < i, ∃ byte, pinByte hex j = some (.ok byte)) :
    ∃ front rest, hex = front ++ rest ∧ front.length = i * 2 ∧ (∀ c ∈ front, c.utf8Size = 1) := by
  induction i with
  | zero => exact ⟨[], hex, rfl, rfl, by simp⟩
  | succ i ih =>
    obtain ⟨front, rest, rfl, hlen, hascii⟩ := ih fun j hj => h j (Nat.lt_succ_of_lt hj)
    obtain ⟨byte, hbyte⟩ := h i (Nat.lt_succ_self i)
    obtain ⟨front', x, y, after, heq, hfront', hx, hy, -⟩ := pinByte_eq_ok_iff.1 hbyte
    have hfront : Text.byteLen front = i * 2 := (Text.byteLen_eq_length hascii).trans hlen
    obtain ⟨rfl, rfl⟩ := Text.append_inj_of_byteLen heq (hfront.trans hfront'.symm)
    refine ⟨front ++ [x, y], after, by simp, by simp [hlen, Nat.succ_mul], fun c hc => ?_⟩
    rcases List.mem_append.1 hc with hc | hc
    · exact hascii c hc
    · rcases List.mem_cons.1 hc with rfl | hc
      · exact hx
      · rw [List.mem_singleton.1 hc]
        exact hy

/-- A text cut in front of two characters and behind them. -/
theorem eq_append_pair {x y : Char} (hx : hex[i]? = some x) (hy : hex[i + 1]? = some y) :
    hex = hex.take i ++ ([x, y] ++ hex.drop (i + 2)) := by
  obtain ⟨hi, rfl⟩ := List.getElem?_eq_some_iff.1 hx
  obtain ⟨hi', rfl⟩ := List.getElem?_eq_some_iff.1 hy
  rw [List.cons_append, List.cons_append, List.nil_append, List.getElem_cons_drop,
    List.getElem_cons_drop, List.take_append_drop]

/-- The bytes of a front of one-byte characters are read if its complete pairs are. -/
theorem pairsRead_iff (hascii : ∀ c ∈ front, c.utf8Size = 1) (rest : List Char) :
    PairsRead front ↔
      ∀ j < front.length / 2, ∃ byte, pinByte (front ++ rest) j = some (.ok byte) := by
  constructor
  · intro hpairs j hj
    have hlt : j * 2 + 1 < front.length := by omega
    have hsplit := eq_append_pair (List.getElem?_eq_getElem (Nat.lt_of_succ_lt hlt))
      (List.getElem?_eq_getElem hlt)
    have hlen : (front.take (j * 2)).length = j * 2 := List.length_take_of_le (by omega)
    obtain ⟨byte, hbyte⟩ := hpairs _ _ _ _ hsplit ⟨j, by rw [hlen, Nat.mul_comm]⟩
    refine ⟨byte, ?_⟩
    rw [hsplit, List.append_assoc, List.append_assoc]
    refine (pinByte_append_iff hlen (fun c hc => ?_) ?_ ?_).2 hbyte
    · exact hascii c (List.mem_of_mem_take hc)
    · exact hascii _ (List.getElem_mem _)
    · exact hascii _ (List.getElem_mem _)
  · rintro h before x y after rfl ⟨j, hbefore⟩
    have hlt : j < (before ++ ([x, y] ++ after)).length / 2 := by
      simp only [List.length_append, List.length_cons, List.length_nil]
      omega
    obtain ⟨byte, hbyte⟩ := h j hlt
    refine ⟨byte, ?_⟩
    rw [List.append_assoc, List.append_assoc] at hbyte
    refine (pinByte_append_iff (by omega) (fun c hc => ?_) ?_ ?_).1 hbyte
    · exact hascii c (List.mem_append_left _ hc)
    · exact hascii x (by simp)
    · exact hascii y (by simp)

/-! ### Panics -/

/-- A slice of the text cuts a character: its first character outside ASCII comes before any pair
that is not read, and does not fill a slice. -/
def CutsCharacter (hex : List Char) : Prop :=
  Text.byteLen hex = 64 ∧ ∃ front c rest, hex = front ++ c :: rest ∧
    (∀ a ∈ front, a.utf8Size = 1) ∧ c.utf8Size ≠ 1 ∧ PairsRead front ∧
    (¬ 2 ∣ front.length ∨ c.utf8Size ≠ 2)

/-- A slice that panics behind bytes that are read cuts a character. -/
theorem cutsCharacter_of_none (hlen : Text.byteLen hex = 64) (hi : i < 32)
    (hnone : pinByte hex i = none) (hread : ∀ j < i, ∃ byte, pinByte hex j = some (.ok byte)) :
    CutsCharacter hex := by
  obtain ⟨front, rest, rfl, hfront, hascii⟩ := exists_front hread
  have hbytes : Text.byteLen front = i * 2 := (Text.byteLen_eq_length hascii).trans hfront
  have hcut := (pinByte_eq_none_iff hbytes).1 hnone
  rw [Text.byteLen_append] at hlen
  match rest with
  | [] => exact absurd hlen (by simp only [Text.byteLen_nil]; omega)
  | c :: rest =>
    by_cases hc : c.utf8Size = 1
    · -- The character is the first of a pair whose second one is cut.
      match rest with
      | [] => exact absurd hlen (by simp only [Text.byteLen_cons, Text.byteLen_nil]; omega)
      | d :: rest =>
        have hd : d.utf8Size ≠ 1 := fun hd => hcut [c, d] rest rfl (by simp [hc, hd])
        have hascii' : ∀ a ∈ front ++ [c], a.utf8Size = 1 := by
          intro a ha
          rcases List.mem_append.1 ha with ha | ha
          · exact hascii a ha
          · rw [List.mem_singleton.1 ha]
            exact hc
        have hlen' : (front ++ [c]).length = i * 2 + 1 := by
          rw [List.length_append, List.length_singleton, hfront]
        refine ⟨by simpa using hlen, front ++ [c], d, rest, by simp, hascii', hd, ?_, .inl ?_⟩
        · refine (pairsRead_iff hascii' (d :: rest)).2 fun j hj => ?_
          rw [List.append_assoc]
          exact hread j (by omega)
        · omega
    · have hwide : c.utf8Size ≠ 2 := fun htwo => hcut [c] rest rfl (by simp [htwo])
      refine ⟨by simpa using hlen, front, c, rest, rfl, hascii, hc, ?_, .inr hwide⟩
      exact (pairsRead_iff hascii (c :: rest)).2 fun j hj => hread j (by omega)

/-- A slice that cuts a character panics, and the bytes before it are read. -/
theorem CutsCharacter.exists_none (h : CutsCharacter hex) :
    ∃ i < 32, pinByte hex i = none ∧ ∀ j < i, ∃ byte, pinByte hex j = some (.ok byte) := by
  obtain ⟨hlen, front, c, rest, rfl, hascii, hc, hpairs, hcut⟩ := h
  have hpos := c.utf8Size_pos
  have hbytes := Text.byteLen_eq_length hascii
  rw [Text.byteLen_append, Text.byteLen_cons, hbytes] at hlen
  refine ⟨front.length / 2, by omega, ?_, (pairsRead_iff hascii (c :: rest)).1 hpairs⟩
  by_cases heven : 2 ∣ front.length
  · -- The slice begins with the character, which is wider than the slice.
    have hwide : c.utf8Size ≠ 2 := hcut.resolve_left (not_not.2 heven)
    refine (pinByte_eq_none_iff (by omega)).2 fun pair after heq hpair => ?_
    match pair with
    | [] => simp at hpair
    | a :: pair =>
      obtain ⟨rfl, -⟩ := List.cons.inj heq
      rw [Text.byteLen_cons] at hpair
      omega
  · -- The slice begins with the last character of the front.
    rcases front.eq_nil_or_concat' with rfl | ⟨front, x, rfl⟩
    · exact absurd (Nat.dvd_zero 2) heven
    have hx : x.utf8Size = 1 := hascii x (by simp)
    have hfront : Text.byteLen front = (front ++ [x]).length / 2 * 2 := by
      simp only [Text.byteLen_append, Text.byteLen_cons, Text.byteLen_nil, List.length_append,
        List.length_singleton, hx] at hbytes heven ⊢
      omega
    rw [List.append_assoc]
    refine (pinByte_eq_none_iff hfront).2 fun pair after heq hpair => ?_
    match pair with
    | [] => simp at hpair
    | [a] =>
      obtain ⟨rfl, -⟩ := List.cons.inj heq
      rw [Text.byteLen_cons, hx] at hpair
      simp at hpair
    | a :: b :: pair =>
      simp only [List.cons_append, List.nil_append, List.cons.injEq] at heq
      obtain ⟨rfl, rfl, -⟩ := heq
      rw [Text.byteLen_cons, Text.byteLen_cons, hx] at hpair
      omega

/-- A text panics exactly when a slice of it cuts a character. -/
theorem parsePin_eq_none_iff : parsePin s = none ↔ CutsCharacter (pinChars s) := by
  rw [parsePin]
  split_ifs with hempty hlen
  · subst hempty
    refine iff_of_false (by simp) fun hcuts => absurd hcuts.1 (by decide)
  · exact iff_of_false (by simp) fun hcuts => hlen hcuts.1
  · rw [Option.map_eq_none_iff, pinLoop_eq_none_iff (List.pairwise_lt_finRange 32)]
    constructor
    · rintro ⟨i, -, hnone, hread⟩
      refine cutsCharacter_of_none (not_not.1 hlen) i.isLt hnone fun j hj => ?_
      exact hread ⟨j, by omega⟩ (List.mem_finRange _) hj
    · intro hcuts
      obtain ⟨i, hi, hnone, hread⟩ := hcuts.exists_none
      exact ⟨⟨i, hi⟩, List.mem_finRange _, hnone, fun j _ hj => hread j hj⟩

/-- A result is returned exactly when no slice cuts a character. -/
theorem parsePin_returns_iff (s : String) :
    (∃ result, parsePin s = some result) ↔ ¬ CutsCharacter (pinChars s) := by
  rw [← parsePin_eq_none_iff, ← Option.ne_none_iff_exists']

/-- A character of three bytes at the front is cut. -/
theorem parsePin_panics :
    let s := "€0000000000000000000000000000000000000000000000000000000000000"
    ¬ ∃ result, parsePin s = some result := by
  intro s
  have hpanic : parsePin s = none := by decide +kernel
  simp [hpanic]

/-! ### Accepted texts -/

/-- The text is the hexadecimal spelling of the digest: two digits for each byte, the higher
first. -/
def Spells (hex : List Char) (pin : Digest256) : Prop :=
  hex.length = 64 ∧ ∀ i : Fin 32, ∃ x y hi lo,
    hex[(i : ℕ) * 2]? = some x ∧ hex[(i : ℕ) * 2 + 1]? = some y ∧
    Text.toDigit 16 x = some hi ∧ Text.toDigit 16 y = some lo ∧ pin[i].toNat = hi * 16 + lo

/-- A pin is accepted if its text has the right length and every byte is read. -/
theorem parsePin_eq_ok_iff :
    parsePin s = some (.ok (some pin)) ↔ s ≠ "" ∧ Text.byteLen (pinChars s) = 64 ∧
      ∀ i : Fin 32, pinByte (pinChars s) i = some (.ok pin[i]) := by
  rw [parsePin]
  split_ifs with hempty hlen
  · simp [hempty]
  · simp [hlen]
  · have hloop : pinLoop (pinChars s) (List.finRange 32) (Vector.replicate 32 0) = some (.ok pin) ↔
        ∀ i : Fin 32, pinByte (pinChars s) i = some (.ok pin[i]) := by
      rw [pinLoop_eq_ok_iff (List.nodup_finRange 32)]
      simp
    rw [← hloop, and_iff_right hempty, and_iff_right (not_not.1 hlen)]
    cases pinLoop (pinChars s) (List.finRange 32) (Vector.replicate 32 0) with
    | none => simp
    | some result => cases result <;> simp [Except.map]

/-- The two characters of a byte of an accepted text. -/
theorem exists_pair (hlen : Text.byteLen hex = 64)
    (h : ∀ i : Fin 32, pinByte hex i = some (.ok pin[i])) :
    hex.length = 64 ∧ ∀ i : Fin 32, ∃ x y, hex[(i : ℕ) * 2]? = some x ∧
      hex[(i : ℕ) * 2 + 1]? = some y ∧ ReadsByte [x, y] pin[i] := by
  obtain ⟨front, rest, rfl, hfront, hascii⟩ :=
    exists_front (i := 32) fun j hj => ⟨_, h ⟨j, hj⟩⟩
  -- The characters that are read make up the whole text.
  obtain rfl : rest = [] := by
    rw [Text.byteLen_append, Text.byteLen_eq_length hascii] at hlen
    exact Text.byteLen_eq_zero_iff.1 (by omega)
  rw [List.append_nil] at h ⊢
  refine ⟨hfront, fun i => ?_⟩
  obtain ⟨before, x, y, after, rfl, hbefore, -, -, hread⟩ := pinByte_eq_ok_iff.1 (h i)
  have hbefore : before.length = i * 2 := by
    rw [← hbefore, Text.byteLen_eq_length fun c hc => hascii c (List.mem_append_left _ hc)]
  refine ⟨x, y, ?_, ?_, hread⟩
  · rw [← hbefore, List.getElem?_append_right (Nat.le_refl _)]
    simp
  · rw [← hbefore, List.getElem?_append_right (Nat.le_add_right _ 1)]
    simp

/-- Two characters without a plus sign are two digits. -/
theorem ReadsByte.digits {x y : Char} (h : ReadsByte [x, y] byte) (hx : x ≠ '+') :
    ∃ hi lo, Text.toDigit 16 x = some hi ∧ Text.toDigit 16 y = some lo ∧
      byte.toNat = hi * 16 + lo := by
  obtain ⟨n, hn, rfl⟩ := h
  rcases Text.fromStrRadix_pair.1 hn with ⟨hi, lo, hhi, hlo, rfl⟩ | ⟨hplus, -⟩
  · have hhi' := (Text.toDigit_spec hhi).2
    have hlo' := (Text.toDigit_spec hlo).2
    have hlt : hi * 16 + lo < 2 ^ 8 := by omega
    exact ⟨hi, lo, hhi, hlo, UInt8.toNat_ofNat_of_lt' hlt⟩
  · exact absurd hplus hx

/-- Every character of a spelling is a digit. -/
theorem Spells.exists_toDigit (h : Spells hex pin) {c : Char} (hc : c ∈ hex) :
    ∃ digit, Text.toDigit 16 c = some digit := by
  obtain ⟨k, hk, rfl⟩ := List.mem_iff_getElem.1 hc
  have hlen := h.1
  obtain ⟨x, y, hi, lo, hx, hy, hhi, hlo, -⟩ := h.2 ⟨k / 2, by omega⟩
  rcases Nat.mod_two_eq_zero_or_one k with hmod | hmod
  · rw [show k / 2 * 2 = k by omega, List.getElem?_eq_getElem hk] at hx
    exact ⟨hi, by rw [Option.some.inj hx, hhi]⟩
  · rw [show k / 2 * 2 + 1 = k by omega, List.getElem?_eq_getElem hk] at hy
    exact ⟨lo, by rw [Option.some.inj hy, hlo]⟩

/-- There is no plus sign in a spelling. -/
theorem Spells.notMem_plus (h : Spells hex pin) : '+' ∉ hex := by
  intro hplus
  obtain ⟨digit, hdigit⟩ := h.exists_toDigit hplus
  rw [Text.toDigit_plus] at hdigit
  exact absurd hdigit (by simp)

/-- An accepted text spells the digest exactly when there is no plus sign in it. -/
theorem parsePin_spells_iff (h : parsePin s = some (.ok (some pin))) :
    Spells (pinChars s) pin ↔ '+' ∉ s.toList := by
  obtain ⟨-, hlen, hread⟩ := parsePin_eq_ok_iff.1 h
  obtain ⟨hlen, hpairs⟩ := exists_pair hlen hread
  have hmem : '+' ∈ pinChars s ↔ '+' ∈ s.toList := by
    rw [pinChars, List.mem_filter]
    exact and_iff_left (by decide)
  rw [← hmem]
  constructor
  · exact Spells.notMem_plus
  · intro hplus
    refine ⟨hlen, fun i => ?_⟩
    obtain ⟨x, y, hx, hy, hbyte⟩ := hpairs i
    have hne : x ≠ '+' := fun heq => hplus (heq ▸ List.mem_of_getElem? hx)
    obtain ⟨hi, lo, hhi, hlo, heq⟩ := hbyte.digits hne
    exact ⟨x, y, hi, lo, hx, hy, hhi, hlo, heq⟩

/-- The digest of zeros, in digits. -/
theorem parsePin_spells_zeros :
    let s := "0000000000000000000000000000000000000000000000000000000000000000"
    parsePin s = some (.ok (some (Vector.replicate 32 0))) ∧
      Spells (pinChars s) (Vector.replicate 32 0) := by
  intro s
  have hparse : parsePin s = some (.ok (some (Vector.replicate 32 0))) := by decide +kernel
  exact ⟨hparse, (parsePin_spells_iff hparse).2 (by decide +kernel)⟩

/-- A plus sign is accepted in front of a digit. -/
theorem parsePin_accepts_plus :
    let s := "+0+0+0+0+0+0+0+0+0+0+0+0+0+0+0+0+0+0+0+0+0+0+0+0+0+0+0+0+0+0+0+0"
    parsePin s = some (.ok (some (Vector.replicate 32 0))) ∧
      ¬ Spells (pinChars s) (Vector.replicate 32 0) := by
  intro s
  have hplus : '+' ∈ pinChars s := by decide +kernel
  exact ⟨by decide +kernel, fun hspells => hspells.notMem_plus hplus⟩

/-! ### Renderings of a digest -/

/-- White space and colons. -/
def IsSeparator (c : Char) : Prop := Text.isWhitespace c = true ∨ c = ':'

/-- The hexadecimal digit of a number below 16, in upper or lower case. -/
def hexDigit (upper : Bool) (digit : ℕ) : Char :=
  if upper then digit.digitChar.toUpper else digit.digitChar

/-- The digits of a digest, two for each byte and the higher first. -/
def hexDigits (bytes : List UInt8) : List ℕ :=
  bytes.flatMap fun byte => [byte.toNat / 16, byte.toNat % 16]

/-- The texts of hexadecimal digits: each digit is in upper or in lower case, and separators stand
anywhere. -/
inductive Renders : List ℕ → List Char → Prop
  | nil : Renders [] []
  | digit (upper : Bool) {digit : ℕ} {digits : List ℕ} {text : List Char} :
    Renders digits text → Renders (digit :: digits) (hexDigit upper digit :: text)
  | separator {c : Char} {digits : List ℕ} {text : List Char} :
    IsSeparator c → Renders digits text → Renders digits (c :: text)

example : Renders [10, 11] "A: b".toList :=
  .digit true (.separator (.inr rfl) (.separator (.inl rfl) (.digit false .nil)))

theorem toDigit_hexDigit {digit : ℕ} (h : digit < 16) (upper : Bool) :
    Text.toDigit 16 (hexDigit upper digit) = some digit := by
  interval_cases digit <;> cases upper <;> rfl

theorem not_isSeparator_hexDigit {digit : ℕ} (h : digit < 16) (upper : Bool) :
    (!Text.isWhitespace (hexDigit upper digit) && hexDigit upper digit != ':') = true := by
  interval_cases digit <;> cases upper <;> rfl

/-- The filter takes out a separator. -/
theorem IsSeparator.filtered {c : Char} (h : IsSeparator c) :
    ¬ (!Text.isWhitespace c && c != ':') = true := by
  rcases h with h | rfl
  · simp [h]
  · simp

/-- What is left of a rendering without its separators are its digits. -/
theorem Renders.filter {digits : List ℕ} {text : List Char} (h : Renders digits text)
    (hlt : ∀ digit ∈ digits, digit < 16) :
    List.Forall₂ (fun digit c => Text.toDigit 16 c = some digit) digits
      (text.filter fun c => !Text.isWhitespace c && c != ':') := by
  induction h with
  | nil => exact .nil
  | digit upper h ih =>
    obtain ⟨hdigit, hdigits⟩ := List.forall_mem_cons.1 hlt
    rw [List.filter_cons, if_pos (not_isSeparator_hexDigit hdigit upper)]
    exact .cons (toDigit_hexDigit hdigit upper) (ih hdigits)
  | separator hsep h ih =>
    rw [List.filter_cons, if_neg hsep.filtered]
    exact ih hlt

/-- The digits of the bytes, by position. -/
theorem getElem?_hexDigits (bytes : List UInt8) (i : ℕ) :
    (hexDigits bytes)[i * 2]? = bytes[i]?.map (·.toNat / 16) ∧
      (hexDigits bytes)[i * 2 + 1]? = bytes[i]?.map (·.toNat % 16) := by
  induction bytes generalizing i with
  | nil => exact ⟨rfl, rfl⟩
  | cons byte bytes ih =>
    cases i with
    | zero => exact ⟨rfl, rfl⟩
    | succ i =>
      rw [Nat.succ_mul]
      exact ih i

theorem length_hexDigits (bytes : List UInt8) : (hexDigits bytes).length = bytes.length * 2 := by
  induction bytes with
  | nil => rfl
  | cons byte bytes ih =>
    change (hexDigits bytes).length + 2 = _
    rw [ih, List.length_cons, Nat.succ_mul]

theorem lt_of_mem_hexDigits {bytes : List UInt8} {digit : ℕ} (h : digit ∈ hexDigits bytes) :
    digit < 16 := by
  obtain ⟨byte, -, hdigit⟩ := List.mem_flatMap.1 h
  have hbyte := byte.toNat_lt
  simp only [List.mem_cons, List.not_mem_nil, or_false] at hdigit
  omega

/-- A rendering, without its separators, spells the digest. -/
theorem Renders.spells (h : Renders (hexDigits pin.toList) s.toList) : Spells (pinChars s) pin := by
  have hforall : List.Forall₂ (fun digit c => Text.toDigit 16 c = some digit)
      (hexDigits pin.toList) (pinChars s) := h.filter fun digit => lt_of_mem_hexDigits
  have hlen : (pinChars s).length = 64 := by
    rw [← hforall.length_eq, length_hexDigits, Vector.length_toList]
  have hchar {k digit : ℕ} (hk : (hexDigits pin.toList)[k]? = some digit) :
      ∃ c, (pinChars s)[k]? = some c ∧ Text.toDigit 16 c = some digit := by
    obtain ⟨hlt, rfl⟩ := List.getElem?_eq_some_iff.1 hk
    have hlt' : k < (pinChars s).length := hforall.length_eq ▸ hlt
    exact ⟨_, List.getElem?_eq_getElem hlt', hforall.get hlt hlt'⟩
  refine ⟨hlen, fun i => ?_⟩
  have hbyte : pin.toList[(i : ℕ)]? = some pin[i] := by simp
  obtain ⟨hhigh, hlow⟩ := getElem?_hexDigits pin.toList i
  rw [hbyte, Option.map_some] at hhigh hlow
  obtain ⟨x, hx, hhi⟩ := hchar hhigh
  obtain ⟨y, hy, hlo⟩ := hchar hlow
  exact ⟨x, y, _, _, hx, hy, hhi, hlo, (Nat.div_add_mod' _ 16).symm⟩

/-- Two digits are read as their byte. -/
theorem readsByte_of_digits {x y : Char} {hi lo : ℕ} (hhi : Text.toDigit 16 x = some hi)
    (hlo : Text.toDigit 16 y = some lo) (hbyte : byte.toNat = hi * 16 + lo) :
    ReadsByte [x, y] byte := by
  refine ⟨hi * 16 + lo, Text.fromStrRadix_pair.2 (.inl ⟨hi, lo, hhi, hlo, rfl⟩), ?_⟩
  rw [← hbyte, UInt8.ofNat_toNat]

/-- A text that spells the digest is accepted. -/
theorem parsePin_of_spells (h : Spells (pinChars s) pin) :
    parsePin s = some (.ok (some pin)) := by
  have hascii (c : Char) (hc : c ∈ pinChars s) : c.utf8Size = 1 := by
    obtain ⟨digit, hdigit⟩ := h.exists_toDigit hc
    exact (Text.toDigit_spec hdigit).1
  have hlen := h.1
  refine parsePin_eq_ok_iff.2 ⟨?_, by rw [Text.byteLen_eq_length hascii, hlen], fun i => ?_⟩
  · rintro rfl
    exact absurd hlen (by decide)
  · obtain ⟨x, y, hi, lo, hx, hy, hhi, hlo, hbyte⟩ := h.2 i
    rw [eq_append_pair hx hy]
    refine (pinByte_append_iff ?_ (fun c hc => ?_) ?_ ?_).2 (readsByte_of_digits hhi hlo hbyte)
    · exact List.length_take_of_le (by omega)
    · exact hascii c (List.mem_of_mem_take hc)
    · exact (Text.toDigit_spec hhi).1
    · exact (Text.toDigit_spec hlo).1

/-- Only the empty text is no pin. -/
theorem parsePin_eq_none_pin_iff : parsePin s = some (.ok none) ↔ s = "" := by
  rw [parsePin]
  split_ifs with hempty hlen
  · simp [hempty]
  · simp [hempty]
  · simp only [hempty, iff_false]
    cases pinLoop (pinChars s) (List.finRange 32) (Vector.replicate 32 0) with
    | none => simp
    | some result => cases result <;> simp [Except.map]

/-- Every rendering of a digest is understood, and the empty text alone is no pin: one of separators
only is rejected. -/
theorem parsePin_renders (pin : Digest256) (s : String) :
    (Renders (hexDigits pin.toList) s.toList → parsePin s = some (.ok (some pin))) ∧
      (parsePin s = some (.ok none) ↔ s = "") ∧
      ((∀ c ∈ s.toList, IsSeparator c) → s ≠ "" →
        parsePin s = some (.error (.config "pin_sha256 must be 32 bytes (64 hex chars)"))) := by
  refine ⟨fun h => parsePin_of_spells h.spells, parsePin_eq_none_pin_iff, fun hsep hne => ?_⟩
  have hchars : pinChars s = [] := List.filter_eq_nil_iff.2 fun c hc => (hsep c hc).filtered
  rw [parsePin, if_neg hne, if_pos (by simp [hchars])]

end Rsteria.Transport.Tls
