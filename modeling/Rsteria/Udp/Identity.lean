import Rsteria.Udp.Relay

/-!
# The ids of UDP sessions

`UdpSessionManager::new_session` of `src/udp.rs` takes the id of a session from a `u32` counter that
wraps around, and inserts the sender of its channel into the map under that id, whether or not the
id is in use; `Drop for UdpSession` removes what the map has under the id of the session. A live
session keeps its entry as long as no other session is opened with its id, and this is all that can
go wrong (`undisplaced_iff`): opening a session with the id of a live one takes its entry.

A session that stays open while `2 ^ 32 - 1` others are opened and dropped one after the other is
displaced by the next one (`wrap_around_displaces`).

## Main definitions

* `Udp.Relay.Undisplaced` : every live session has its own entry.
* `Udp.Relay.Fresh` : no session is opened with the id of a live one.

## Main results

* `Udp.Relay.undisplaced_iff` : when no live session is displaced in a run.
* `Udp.Relay.wrap_around_displaces` : a run in which one is.
-/

namespace Rsteria.Udp.Relay

open Protocol

variable {s : Relay} {mgr : Manager} {h : ℕ} {id : UInt32}

/-- The manager maps the id of each live session to its channel, and the ids of live sessions are
distinct. -/
structure Owned (s : Relay) : Prop where
  registered : ∀ mgr, s.manager = some mgr → ∀ (h : ℕ) (id : UInt32),
    s.identities[h]? = some (id, true) → mgr.sessions.lookup id = some h
  distinct : ∀ (h h' : ℕ) (id : UInt32), s.identities[h]? = some (id, true) →
    s.identities[h']? = some (id, true) → h = h'

/-- Moreover, dropping a session removes its entry and no other. -/
structure Undisplaced (s : Relay) : Prop extends s.Owned where
  drop : ∀ mgr, s.manager = some mgr → ∀ h, s.Live h →
    ∃ mgr', (s.step (.dropSession h)).2.manager = some mgr' ∧
      ∀ id h', mgr'.sessions.lookup id = some h' ↔ mgr.sessions.lookup id = some h' ∧ h' ≠ h

/-- No session is opened while a live one has the id that it is given. -/
def Fresh (s : Relay) : Event → Prop
  | .newSession => ∀ mgr, s.manager = some mgr → ∀ h : ℕ,
    s.identities[h]? ≠ some (mgr.nextId, true)
  | _ => True

theorem identities_newSession (hmgr : s.manager = some mgr) :
    s.newSession.identities = s.identities ++ [(mgr.nextId, true)] := by
  simp only [Relay.newSession, hmgr, identities, List.map_append, List.map_singleton]

/-- The new session is the last one, every other one is where it was. -/
theorem identity_newSession_cases (hmgr : s.manager = some mgr) {p : UInt32 × Bool}
    (hp : s.newSession.identities[h]? = some p) :
    s.identities[h]? = some p ∨ h = s.channels.length ∧ p = (mgr.nextId, true) := by
  rw [identities_newSession hmgr] at hp
  rcases Nat.lt_or_ge h s.identities.length with hlt | hge
  · exact .inl (by rwa [List.getElem?_append_left hlt] at hp)
  · rw [List.getElem?_append_right hge, List.getElem?_singleton] at hp
    split_ifs at hp with hzero
    have hlen : s.identities.length = s.channels.length := List.length_map _
    exact .inr ⟨by omega, (Option.some.inj hp).symm⟩

theorem identities_dropSession (s : Relay) (h : ℕ) (c : Channel) :
    (s.dropSession h c).identities = s.identities.set h (c.id, false) := by
  simp only [Relay.dropSession, identities, List.map_set]

/-- Where the entry of a session that is dropped is its own, no other goes. -/
theorem Owned.undisplaced (hs : s.Owned) (hreg : s.Registered) : s.Undisplaced := by
  refine ⟨hs, ?_⟩
  rintro mgr hmgr h ⟨c, hc, hlive⟩
  have hident : s.identities[h]? = some (c.id, true) := identity_iff.2 ⟨c, hc, rfl, hlive⟩
  refine ⟨mgr.remove c.id, by simp [Relay.step, hc, hlive, Relay.dropSession, hmgr], ?_⟩
  intro id h'
  by_cases hid : id = c.id
  · subst hid
    rw [Manager.remove, AList.lookup_erase]
    constructor
    · intro hnone
      exact absurd hnone (by simp)
    · rintro ⟨hlookup, hne⟩
      have hown := hs.registered mgr hmgr h c.id hident
      exact absurd (Option.some.inj (hlookup.symm.trans hown)) hne
  · rw [Manager.remove, AList.lookup_erase_ne hid]
    refine ⟨fun hlookup => ⟨hlookup, ?_⟩, fun hlookup => hlookup.1⟩
    rintro rfl
    have hident' := hreg mgr hmgr id h' hlookup
    exact hid (congrArg Prod.fst (Option.some.inj (hident'.symm.trans hident)))

theorem owned_new : new.Owned where
  registered mgr _ h id hident := by simp [identities, new] at hident
  distinct h h' id hident := by simp [identities, new] at hident

theorem Owned.congr {s' : Relay} (hs : s.Owned) (hmgr : s'.manager = s.manager)
    (hident : s'.identities = s.identities) : s'.Owned where
  registered mgr hmgr' := by
    rw [hident]
    exact hs.registered mgr (hmgr.symm.trans hmgr')
  distinct := by
    rw [hident]
    exact hs.distinct

/-- A session with an id that no live one has takes no entry. -/
theorem Owned.newSession_iff (hs : s.Owned) : s.newSession.Owned ↔ s.Fresh .newSession := by
  cases hmgr : s.manager with
  | none =>
    have hsame : s.newSession = s := by rw [Relay.newSession, hmgr]
    rw [hsame]
    exact iff_of_true hs (by simp [Fresh, hmgr])
  | some mgr =>
    have hnew : s.newSession.manager =
        some ⟨mgr.nextId + 1, mgr.sessions.insert mgr.nextId s.channels.length⟩ := by
      rw [Relay.newSession, hmgr]
    have hlen : s.identities.length = s.channels.length := List.length_map _
    constructor
    · intro howned mgr' hmgr' h hident
      rw [← Option.some.inj (hmgr.symm.trans hmgr')] at hident
      have hlt := (List.getElem?_eq_some_iff.1 hident).1
      have heq := howned.distinct h s.channels.length mgr.nextId
        (by rwa [identities_newSession hmgr, List.getElem?_append_left hlt])
        (by rw [identities_newSession hmgr, ← hlen, List.getElem?_concat_length])
      omega
    · intro hfresh
      have hcases {h : ℕ} {id : UInt32} (hident : s.newSession.identities[h]? = some (id, true)) :
          s.identities[h]? = some (id, true) ∧ id ≠ mgr.nextId ∨
            h = s.channels.length ∧ id = mgr.nextId := by
        rcases identity_newSession_cases hmgr hident with hold | ⟨hlast, hid⟩
        · exact .inl ⟨hold, fun heq => hfresh mgr hmgr h (heq ▸ hold)⟩
        · exact .inr ⟨hlast, congrArg Prod.fst hid⟩
      refine ⟨fun mgr' hmgr' h id hident => ?_, fun h h' id hident hident' => ?_⟩
      · rw [← Option.some.inj (hnew.symm.trans hmgr')]
        rcases hcases hident with ⟨hold, hne⟩ | ⟨rfl, rfl⟩
        · rw [AList.lookup_insert_ne hne]
          exact hs.registered mgr hmgr h id hold
        · exact AList.lookup_insert _
      · rcases hcases hident with ⟨hold, hne⟩ | ⟨rfl, rfl⟩
        · rcases hcases hident' with ⟨hold', -⟩ | ⟨-, heq⟩
          · exact hs.distinct h h' id hold hold'
          · exact absurd heq hne
        · rcases hcases hident' with ⟨-, hne⟩ | ⟨rfl, -⟩
          · exact absurd rfl hne
          · rfl

/-- Dropping a session leaves the entries of the others. -/
theorem Owned.dropSession (hs : s.Owned) {c : Channel} (hc : s.channels[h]? = some c)
    (hlive : c.live = true) : (s.dropSession h c).Owned := by
  have hident : s.identities[h]? = some (c.id, true) := identity_iff.2 ⟨c, hc, rfl, hlive⟩
  have hcases {h' : ℕ} {id : UInt32}
      (hident' : (s.dropSession h c).identities[h']? = some (id, true)) :
      h' ≠ h ∧ s.identities[h']? = some (id, true) := by
    rw [identities_dropSession, List.getElem?_set] at hident'
    split_ifs at hident' with heq hlt
    · simp at hident'
    · exact ⟨fun h => heq h.symm, hident'⟩
  refine ⟨fun mgr' hmgr' h' id hident' => ?_, fun h₁ h₂ id h₁' h₂' => ?_⟩
  · obtain ⟨mgr, hmgr, rfl⟩ := Option.map_eq_some_iff.1 hmgr'
    obtain ⟨hne, hold⟩ := hcases hident'
    have hid : id ≠ c.id := by
      rintro rfl
      exact hne (hs.distinct h' h c.id hold hident)
    rw [Manager.remove, AList.lookup_erase_ne hid]
    exact hs.registered mgr hmgr h' id hold
  · exact hs.distinct h₁ h₂ id (hcases h₁').2 (hcases h₂').2

/-- Only the opening of a session with the id of a live one takes an entry. -/
theorem Owned.outcome_iff {s' : Relay} {e : Event} (hs : s.Owned) (h : s.Outcome e s') :
    s'.Owned ↔ s.Fresh e := by
  cases h with
  | newSession => exact hs.newSession_iff
  | dropSession hc hlive => exact iff_of_true (hs.dropSession hc hlive) trivial
  | @datagram raw _ =>
    exact iff_of_true (hs.congr (s.receiveDatagram_frame raw).1 (s.receiveDatagram_frame raw).2)
      trivial
  | recv hc _ => exact iff_of_true (hs.congr (recv_frame hc).1 (recv_frame hc).2) trivial
  | closeConnection => exact iff_of_true (hs.congr rfl rfl) trivial
  | readError => exact iff_of_true (hs.congr rfl rfl) trivial
  | dropClient =>
    exact iff_of_true ⟨fun mgr hmgr => absurd hmgr (by simp), hs.distinct⟩ trivial
  | idle hnew _ =>
    refine iff_of_true hs ?_
    cases e with
    | newSession => exact absurd rfl hnew
    | _ => trivial

/-- **When no live session is displaced.** In a run every live session keeps its entry in the map
and has an id of its own, and dropping a session removes its entry alone, if and only if no session
is opened while a live one has the id that the counter gives it. -/
theorem undisplaced_iff (es : List Event) :
    (∀ t ≤ es.length, (run (es.take t)).Undisplaced) ↔
      ∀ t e, es[t]? = some e → (run (es.take t)).Fresh e := by
  have howned := Mealy.forall_take_iff Relay.step trivial owned_new (fun _ _ _ => trivial)
    (fun s e (_ : True) hs => Owned.outcome_iff hs (s.outcome_step e)) es
  refine (forall₂_congr fun t _ => ?_).trans howned
  exact ⟨fun hs => hs.toOwned, fun hs => hs.undisplaced (registered_run _)⟩

/-! ### A run in which a session is displaced -/

/-- The number of live sessions. -/
def liveCount (s : Relay) : ℕ := s.channels.countP Channel.live

/-- Open a session, and then open and drop `k` others, one after the other. -/
def longLived (k : ℕ) : List Event :=
  .newSession :: (List.range k).flatMap fun j => [.newSession, .dropSession (j + 1)]

/-- The relay after `longLived k`. -/
def longLivedRelay (k : ℕ) : Relay where
  manager := some ⟨UInt32.ofNat (k + 2), AList.singleton 1 0⟩
  channels := ⟨1, [], Defragger.default, true⟩ ::
    (List.range k).map fun j => ⟨UInt32.ofNat (j + 2), [], Defragger.default, false⟩
  loop := .running
  connClosed := false

theorem longLived_succ (k : ℕ) :
    longLived (k + 1) = longLived k ++ [.newSession, .dropSession (k + 1)] := by
  simp [longLived, List.range_succ]

theorem length_longLivedRelay (k : ℕ) : (longLivedRelay k).channels.length = k + 1 := by
  simp [longLivedRelay]

theorem liveCount_longLivedRelay (k : ℕ) : (longLivedRelay k).liveCount = 1 := by
  simp [liveCount, longLivedRelay, List.countP_map, Function.comp_def]

theorem liveCount_newSession_le (s : Relay) : s.newSession.liveCount ≤ s.liveCount + 1 := by
  rw [Relay.newSession]
  split
  · exact Nat.le_succ _
  · simp [liveCount]

/-- The counter, which starts at one, gives no id twice in its first `2 ^ 32` values. -/
theorem eq_of_ofNat_succ_eq {k l : ℕ} (hk : k < 2 ^ 32) (hl : l < 2 ^ 32)
    (h : UInt32.ofNat (k + 1) = UInt32.ofNat (l + 1)) : k = l := by
  have hmod := congrArg UInt32.toNat h
  rw [UInt32.toNat_ofNat', UInt32.toNat_ofNat'] at hmod
  omega

/-- An entry that is added and removed again. -/
theorem erase_insert {sessions : AList fun _ : UInt32 => ℕ} (hid : id ∉ sessions) (h : ℕ) :
    (sessions.insert id h).erase id = sessions := by
  apply AList.ext
  change List.kerase id (sessions.insert id h).entries = sessions.entries
  rw [AList.entries_insert_of_notMem hid]
  exact List.kerase_cons_eq rfl

/-- Another session that is opened and dropped leaves the entry of the first one. -/
theorem newSession_longLivedRelay {k : ℕ} (hk : k + 1 < 2 ^ 32) :
    ((longLivedRelay k).newSession.step (.dropSession (k + 1))).2 = longLivedRelay (k + 1) := by
  have hnew : (longLivedRelay k).newSession.channels = (longLivedRelay k).channels ++
      [⟨UInt32.ofNat (k + 2), [], Defragger.default, true⟩] := rfl
  have hchannel : (longLivedRelay k).newSession.channels[k + 1]? =
      some ⟨UInt32.ofNat (k + 2), [], Defragger.default, true⟩ := by
    rw [hnew, ← length_longLivedRelay k, List.getElem?_concat_length]
  have hmanager : (longLivedRelay k).newSession.manager.map (·.remove (UInt32.ofNat (k + 2))) =
      (longLivedRelay (k + 1)).manager := by
    have hne : UInt32.ofNat (k + 2) ∉ AList.singleton (β := fun _ => ℕ) (1 : UInt32) 0 := by
      intro hmem
      have hone : UInt32.ofNat (k + 1 + 1) = UInt32.ofNat (0 + 1) := List.mem_singleton.1 hmem
      exact absurd (eq_of_ofNat_succ_eq hk (by decide) hone) (Nat.succ_ne_zero k)
    simp only [longLivedRelay, Relay.newSession, Option.map_some, Manager.remove, Option.some.injEq,
      Manager.mk.injEq]
    exact ⟨(UInt32.ofNat_add (k + 2) 1).symm, erase_insert hne _⟩
  have hchannels : (longLivedRelay k).newSession.channels.set (k + 1)
      ⟨UInt32.ofNat (k + 2), [], Defragger.default, false⟩ = (longLivedRelay (k + 1)).channels := by
    rw [hnew, ← length_longLivedRelay k, List.set_append_right _ _ le_rfl]
    simp [longLivedRelay, List.range_succ]
  simp only [Relay.step, hchannel, if_true, Relay.dropSession, hmanager, hchannels]
  rfl

theorem run_longLived {k : ℕ} (hk : k < 2 ^ 32) : run (longLived k) = longLivedRelay k := by
  induction k with
  | zero => rfl
  | succ k ih =>
    rw [longLived_succ, run, Mealy.final_append, ← run, ih (Nat.lt_of_succ_lt hk)]
    exact newSession_longLivedRelay hk

/-- At most two sessions are live at a time. -/
theorem liveCount_longLived {k : ℕ} (hk : k < 2 ^ 32) (t : ℕ) :
    (run ((longLived k).take t)).liveCount ≤ 2 := by
  induction k generalizing t with
  | zero =>
    change (run (([] ++ [.newSession] : List Event).take t)).liveCount ≤ 2
    refine Mealy.forall_take_concat Relay.step (P := fun s => s.liveCount ≤ 2) (fun t => ?_)
      (by decide) t
    rw [List.take_nil]
    decide
  | succ k ih =>
    have hrun := run_longLived (Nat.lt_of_succ_lt hk)
    have hopen : run (longLived k ++ [.newSession]) = (longLivedRelay k).newSession := by
      rw [run, Mealy.final_concat, ← run, hrun]
      rfl
    rw [longLived_succ, List.append_cons]
    refine Mealy.forall_take_concat Relay.step (P := fun s => s.liveCount ≤ 2) (fun t => ?_) ?_ t
    · refine Mealy.forall_take_concat Relay.step (P := fun s => s.liveCount ≤ 2)
        (ih (Nat.lt_of_succ_lt hk)) ?_ t
      rw [← run, hrun]
      exact (liveCount_newSession_le _).trans_eq (by rw [liveCount_longLivedRelay])
    · rw [← run, hopen, newSession_longLivedRelay hk, liveCount_longLivedRelay]
      decide

/-- A new session takes the entry of its id. -/
theorem lookup_newSession (hmgr : s.manager = some mgr) :
    s.newSession.manager.bind (·.sessions.lookup mgr.nextId) = some s.channels.length := by
  rw [Relay.newSession, hmgr]
  exact AList.lookup_insert _

/-- A session stays open while `2 ^ 32 - 1` others are opened and dropped, and then another one is
opened. -/
def wrapAround : List Event := longLived (2 ^ 32 - 1) ++ [.newSession]

theorem run_wrapAround : run wrapAround = (longLivedRelay (2 ^ 32 - 1)).newSession := by
  rw [wrapAround, run, Mealy.final_concat, ← run, run_longLived (by decide)]
  rfl

theorem mem_wrapAround {e : Event} (he : e ∈ wrapAround) :
    e = .newSession ∨ ∃ h, e = .dropSession h := by
  simp only [wrapAround, longLived, List.mem_append, List.mem_cons, List.mem_flatMap,
    List.not_mem_nil, or_false] at he
  rcases he with (rfl | ⟨j, -, rfl | rfl⟩) | rfl
  · exact .inl rfl
  · exact .inl rfl
  · exact .inr ⟨j + 1, rfl⟩
  · exact .inl rfl

theorem liveCount_wrapAround (t : ℕ) : (run (wrapAround.take t)).liveCount ≤ 2 := by
  refine Mealy.forall_take_concat Relay.step (P := fun s => s.liveCount ≤ 2)
    (liveCount_longLived (by decide)) ?_ t
  rw [← run, run_longLived (by decide)]
  exact (liveCount_newSession_le _).trans_eq (by rw [liveCount_longLivedRelay])

/-- The counter wraps around: the last session gets the id of the first one and takes its entry. -/
theorem wrap_around_displaces :
    ¬ (∀ es : List Event, (∀ e ∈ es, e = .newSession ∨ ∃ h, e = .dropSession h) →
        (∀ t, (run (es.take t)).liveCount < 2 ^ 32) → ∀ t, (run (es.take t)).Undisplaced) ∧
      (run wrapAround).identities[0]? = some (1, true) ∧
      (run wrapAround).manager.bind (·.sessions.lookup 1) = some (2 ^ 32) := by
  have hident : (run wrapAround).identities[0]? = some (1, true) := by
    rw [run_wrapAround]
    rfl
  have hid : UInt32.ofNat (2 ^ 32 - 1 + 2) = 1 := by decide
  have hlookup : (run wrapAround).manager.bind (·.sessions.lookup 1) = some (2 ^ 32) := by
    have hentry := lookup_newSession (s := longLivedRelay (2 ^ 32 - 1)) rfl
    rwa [hid, length_longLivedRelay, ← run_wrapAround] at hentry
  refine ⟨fun hall => ?_, hident, hlookup⟩
  have hlast := hall wrapAround (fun e he => mem_wrapAround he)
    (fun t => (liveCount_wrapAround t).trans_lt (by decide)) wrapAround.length
  rw [List.take_length] at hlast
  obtain ⟨mgr, hmgr, hentry⟩ := Option.bind_eq_some_iff.1 hlookup
  have hown := hlast.registered mgr hmgr 0 1 hident
  exact absurd (hentry.symm.trans hown) (by decide)

end Rsteria.Udp.Relay
