import LibSigma.Corr.Cluster
import LibSigma.Corr.Observed
import LibSigma.Library.Network

/-!
# Partials between peers

A peer that does not apply an event to a group sends a partial to the owner of the group.  It goes
as a JSON object, and the transport takes it to the peer that the hash of its `key` chooses;
messages may be delivered in any order, more than once, or never.

## What the wire must preserve

Two things travel: where the partial goes, and what it says. The first is the `key` member, which
the sender has rendered and the transport hashes; the second is the rest. `Arrives` states both for
one message, and `arrives` proves it of every partial that is sent. Then the receiving engine does
with the decoded partial what it would do with the partial itself, if no group value is missing. A
value that is missing arrives as an empty one, and an empty value is a group of its own, while a
missing value makes the receiver drop the partial; so there the two differ.

## The network

`LibSigma.Library.Network` has a set of messages in flight from which any may be delivered any
number of times. A relation between two networks, one with JSON objects and one with partials, is
kept by every action if it is kept by the messages (`Net.run_rel`), and an invariant of the nodes is
kept if messages are sound (`Net.Sound`). So only single messages are looked at here.

## Conditions

The strings of a partial are C strings (`CorrContrib.CStrings`): they come from buffers with a
terminator, and the getters on the other side end at one. The receiver has a slot for each group
value. With fewer slots values would be cut off, and a group of two values would be taken for one of
the first value, which another peer owns.

* `corrContribToJson_isSome`: which partials are sent.
* `arrives`: **what comes out at the other end**: the key of the group, and the same partial.
* `wire_refines_direct`: **the wire refines the hand-over of the partial itself.**
* `group_lives_at_owner`: **no two peers ever hold one group, or fire for it.**
-/

namespace LibSigma

open Library

/-! ## What is sent

The encoder refuses a partial whose routing key is too long or whose kind has no name.  Everything
else is sent. -/

/-- A partial that `corr_contrib_to_json` encodes: of a kind that has a name, for a correlation, and
with a key that is not too long. -/
def CorrContrib.sendable (c : CorrContrib) : Bool :=
  match kindName c.kind, c.corrId with
  | none, _ | _, none | _, some [] => false
  | some _, some id => decide ((ownerKey id c.groupVals).length ≤ intMax)

/-- A key that is too long is not rendered. -/
theorem ownerKeyJson_eq_none {corrId : CStr} {vals : List (Option CStr)}
    (h : intMax < (ownerKey corrId vals).length) : ownerKeyJson corrId vals = none := by
  rw [ownerKeyJson]
  cases hlen : ownerKeyLen corrId vals with
  | none => rfl
  | some len => exact if_pos (ownerKeyLen_exact hlen ▸ h)

/-- **Which partials are sent.** -/
theorem corrContribToJson_isSome (c : CorrContrib) (origin : Option CStr) :
    (corrContribToJson c origin).isSome = c.sendable := by
  unfold corrContribToJson CorrContrib.sendable
  cases kindName c.kind with
  | none => rfl
  | some kn =>
    cases c.corrId with
    | none => rfl
    | some id =>
      cases id with
      | nil => rfl
      | cons b bs =>
        dsimp only
        by_cases hkey : (ownerKey (b :: bs) c.groupVals).length ≤ intMax
        · rw [ownerKeyJson_eq hkey, decide_eq_true hkey]
          rfl
        · rw [ownerKeyJson_eq_none (not_le.mp hkey), decide_eq_false hkey]
          rfl

/-- What a partial that is sent looks like. -/
theorem exists_of_sendable {c : CorrContrib} (h : c.sendable = true) :
    ∃ k kn corrId, c.kind = some k ∧ k ≠ .event ∧ kindName c.kind = some kn ∧
      kindParse kn = some k ∧ c.corrId = some corrId ∧ corrId ≠ [] ∧
      (ownerKey corrId c.groupVals).length ≤ intMax := by
  unfold CorrContrib.sendable at h
  cases hkind : c.kind with
  | none =>
    rw [hkind] at h
    cases h
  | some k =>
    have hmerge : k ≠ .event := by
      rintro rfl
      rw [hkind] at h
      cases h
    obtain ⟨kn, hname, hparse⟩ := kindParse_kindName hmerge
    rw [hkind, hname] at h
    cases hid : c.corrId with
    | none =>
      rw [hid] at h
      cases h
    | some id =>
      cases id with
      | nil =>
        rw [hid] at h
        cases h
      | cons b bs =>
        rw [hid] at h
        exact ⟨k, kn, b :: bs, rfl, hmerge, hname, hparse, rfl, List.cons_ne_nil b bs,
          of_decide_eq_true h⟩

/-! ## What arrives

A group value that is missing is written as an empty string, so what arrives is the partial with
such values filled in.  Nothing else changes, except that a count of zero becomes one. -/

section Arrives

variable (lib : JsonLib) {c : CorrContrib} {j : Json} {slots : ℕ}

/-- The key that a transport hashes. -/
def messageKey (j : Json) : CStr := ((j.get (cstr "key")).map lib.getString).getD []

/-- A message has the routing key of its partial, and says what the partial says. -/
structure Arrives (c : CorrContrib) (j : Json) (slots : ℕ) : Prop where
  merge : c.kind ≠ some .event
  key : messageKey lib j = ownerKey (c.corrId.getD []) c.groupVals
  decoded : c.groupVals.length ≤ slots →
    ∃ c', corrContribFromJson lib j slots = some c' ∧ SameContrib c c'

variable {lib}

/-- **What comes out at the other end.** -/
theorem arrives (hlib : lib.Exact) (hnul : c.CStrings) {origin : Option CStr}
    (h : corrContribToJson c origin = some j) (slots : ℕ) : Arrives lib c j slots := by
  have hsend : c.sendable = true := by
    rw [← corrContribToJson_isSome c origin, h]
    rfl
  obtain ⟨k, kn, corrId, hkind, hmerge, hname, hparse, hid, hne, hlen⟩ := exists_of_sendable hsend
  rw [corrContribToJson_eq hname hid hne hlen origin] at h
  have henc : WireMembers c kn corrId j := Option.some.inj h ▸ wireMembers c kn corrId origin
  refine ⟨fun heq => hmerge (Option.some.inj (hkind.symm.trans heq)), ?_,
    henc.decoded hlib hnul hkind hparse hid⟩
  rw [messageKey, henc.key, Option.map_some, Option.getD_some, hid]
  exact hlib.string _ (hnul.ownerKey hid)

end Arrives

/-! ## What the engine makes of it

With all its group values there, the partial that arrives does to an engine what the one that was
sent would do.  With a value missing it would not: the one is refused and counted, and the other has
a group. -/

section Merge

variable (fp : Doubles) {c c' : CorrContrib}

/-- The same contribution is evaluated in the same way. -/
theorem SameContrib.evalContrib_eq (h : SameContrib c c') (caps : CorrCaps) (r : CorrRule) (g : Group)
    (windowStart : ℚ) : evalContrib fp caps r g c' windowStart = evalContrib fp caps r g c windowStart := by
  have hadd : c.kind = some .count ∨ c.kind = some .sum → contribAdd c' = contribAdd c := by
    intro hkind
    rw [contribAdd, contribAdd, h.count hkind]
    by_cases hzero : c.count = 0
    · rw [if_pos hzero, if_pos (by decide), if_neg (not_not.mpr hzero)]
    · rw [if_neg hzero]
  unfold evalContrib
  rw [h.kind, h.ts]
  cases hkind : c.kind with
  | none => rfl
  | some k =>
    cases k with
    | event => rfl
    | count => simp only [hadd (.inl hkind)]
    | sum => simp only [hadd (.inr hkind), h.numeric hkind]
    | distinct => simp only [h.value hkind]
    | seen => simp only [h.seenMask hkind]

/-- The same contribution does the same to a correlation. -/
theorem SameContrib.cstateInput_eq (h : SameContrib c c') (caps : CorrCaps) (st : CorrState)
    (key : List CStr) :
    cstateInput fp caps st key (.contrib c') = cstateInput fp caps st key (.contrib c) := by
  have hgroup : ∀ g : Group, groupInput fp caps st.rule g (.contrib c') =
      groupInput fp caps st.rule g (.contrib c) := by
    intro g
    rw [groupInput, groupInput, h.evalContrib_eq, h.ts]
  unfold cstateInput
  simp only [hgroup]

/-- **The engine does the same with what arrives**, if no group value is missing. -/
theorem SameContrib.corrOnContribution_eq (h : SameContrib c c') (hmerge : c.kind ≠ some .event)
    (hvals : ∀ v ∈ c.groupVals, v ≠ none) (e : CorrEngine) (field : CStr → Option CStr) :
    corrOnContribution fp e c' field = corrOnContribution fp e c field := by
  have hgroup : c'.groupVals = c.groupVals := by
    refine h.group.trans ((List.map_congr_left fun v hv => ?_).trans (List.map_id _))
    obtain ⟨s, rfl⟩ := Option.ne_none_iff_exists'.mp (hvals v hv)
    rfl
  unfold corrOnContribution
  rw [h.kind, h.corrId, h.ts, hgroup, if_neg hmerge, if_neg hmerge]
  simp only [h.cstateInput_eq]

end Merge

/-! ## Owners

Where a message goes is decided by the hash of its key, and who owns a group by `corr_owner_index`;
the keys are the same bytes.  So a message gets to the owner of the group that it will reach there.
-/

/-- The peer that the hash of a key chooses. -/
def PeerRing.hashed (ring : PeerRing) (key : CStr) : Fin ring.nPeers :=
  ⟨(corrFmix32 (djb2 key) % UInt32.ofNat ring.nPeers).toNat, by
    have hmod : (UInt32.ofNat ring.nPeers).toNat = ring.nPeers := UInt32.toNat_ofNat_of_lt' ring.lt
    rw [UInt32.toNat_mod, hmod]
    exact Nat.mod_lt _ ring.pos⟩

/-- The owner of a group is the peer of its key. -/
theorem PeerRing.hashed_ownerKey (ring : PeerRing) (r : CorrRule) (key : List CStr) :
    ring.hashed (ownerKey (r.id.getD []) (key.map some)) = ring.owner r key := by
  refine Fin.ext ?_
  show _ = corrOwnerIndex r.id (key.map some) ring.nPeers
  rw [corrOwnerIndex, if_neg ring.pos.ne', djb2_ownerKey]
  rfl

/-- A missing group value counts as an empty one. -/
theorem ownerKey_getD (corrId : CStr) (vals : List (Option CStr)) :
    ownerKey corrId (vals.map fun v => some (v.getD [])) = ownerKey corrId vals := by
  rw [ownerKey, ownerKey, List.flatMap_map]
  rfl

/-- Values that are all there. -/
theorem eq_map_some_of_mapM {α : Type} {vs : List (Option α)} {ys : List α}
    (h : vs.mapM (fun v => v) = some ys) : vs = ys.map some := by
  induction vs generalizing ys with
  | nil =>
    rw [List.mapM_nil] at h
    rw [← Option.some.inj h]
    rfl
  | cons v vs ih =>
    rw [List.mapM_cons] at h
    obtain ⟨y, hy, h⟩ := Option.bind_eq_some_iff.mp h
    obtain ⟨zs, hzs, h⟩ := Option.bind_eq_some_iff.mp h
    rw [← Option.some.inj h, hy, ih hzs]
    rfl

/-- The group that a partial is for. -/
theorem group_of_contribTarget {rules : List CorrRule} {ci : ℕ} {r : CorrRule} {c : CorrContrib}
    {key : List CStr} {i : GroupInput} (hr : rules[ci]? = some r)
    (h : contribTarget rules ci r c = some (key, i)) :
    c.corrId = r.id ∧ c.groupVals = key.map some := by
  unfold contribTarget at h
  split at h
  · cases h
  · cases h
  · rename_i id _ hid
    split at h
    · rename_i hand
      obtain ⟨k, hk, heq⟩ := Option.map_eq_some_iff.mp h
      cases heq
      obtain ⟨hlt, hfound, -⟩ := List.findIdx?_eq_some_iff_getElem.mp hand.1
      rw [List.getElem?_eq_getElem hlt] at hr
      rw [Option.some.inj hr, beq_iff_eq] at hfound
      exact ⟨hid.trans hfound.symm, eq_map_some_of_mapM hk⟩
    · cases h

/-- A peer that holds groups it owns and no others. -/
structure HoldsOwn (ring : PeerRing) (rules : List CorrRule) (caps : CorrCaps) (p : Fin ring.nPeers)
    (e : CorrEngine) : Prop where
  ok : EngineOk rules caps e
  own : ∀ ci r key, (admittedRules rules)[ci]? = some r → (e.slot ci key).isSome →
    ring.owner r key = p

section Holds

variable (fp : Doubles) {ring : PeerRing} {rules : List CorrRule} {caps : CorrCaps}
  {p : Fin ring.nPeers} {e : CorrEngine}

/-- **A call for groups of the peer** leaves it with groups of its own, and it puts out nothing about
others. -/
theorem HoldsOwn.call (h : HoldsOwn ring rules caps p e) {c : CorrCall}
    (hc : ∀ ci r key i, (admittedRules rules)[ci]? = some r →
      c.target (admittedRules rules) ci r = some (key, i) → ring.owner r key = p) :
    HoldsOwn ring rules caps p (corrCall fp e c).1 ∧
      ∀ o ∈ (corrCall fp e c).2, ∀ r, (admittedRules rules)[o.corr]? = some r →
        ring.owner r o.key = p := by
  refine ⟨⟨h.ok.run [c], fun ci r key hr hsome => ?_⟩, fun o ho r hr => ?_⟩
  · obtain ⟨g, hg, hinput, hnone⟩ := slot_corrCall fp h.ok hr key c
    cases hi : c.inputFor (admittedRules rules) ci r key with
    | some i => exact hc ci r key i hr (target_of_inputFor hi)
    | none =>
      rcases (hnone hi).1 with hslot | ⟨-, hslot⟩
      · rw [hslot] at hsome
        refine h.own ci r key hr ?_
        -- a sweep makes no groups
        rcases hg with rfl | rfl
        · exact hsome
        · rcases h.ok.slot_sweepIfDue hr c.ts key with heq | heq
          · rwa [heq] at hsome
          · rw [heq] at hsome
            exact Option.isSome_of_isSome_filter _ _ hsome
      · rw [hslot] at hsome
        cases hsome
  · obtain ⟨i, hi, -⟩ := exists_input_of_outcome h.ok hr c ho rfl
    exact hc o.corr r o.key i hr (target_of_inputFor hi)

/-- An event that the peer reads. -/
theorem HoldsOwn.onEvent (h : HoldsOwn ring rules caps p e) (ev : CorrEvent) :
    HoldsOwn ring rules caps p (ring.onEvent fp p e ev).1 ∧
      ∀ o ∈ (ring.onEvent fp p e ev).2, ∀ r, (admittedRules rules)[o.corr]? = some r →
        ring.owner r o.key = p := by
  refine h.call fp (c := .event ev (some (ring.applies p))) fun ci r key i _ htarget => ?_
  obtain ⟨rid, -, htarget⟩ := Option.bind_eq_some_iff.mp htarget
  obtain ⟨key', -, htarget⟩ := Option.bind_eq_some_iff.mp htarget
  split at htarget
  · rename_i happlies
    cases htarget
    exact beq_iff_eq.mp happlies
  · cases htarget

/-- A partial with the key of the peer. -/
theorem HoldsOwn.contribution (h : HoldsOwn ring rules caps p e) {c : CorrContrib}
    (hmerge : c.kind ≠ some .event)
    (hp : ring.hashed (ownerKey (c.corrId.getD []) c.groupVals) = p) (field : CStr → Option CStr) :
    HoldsOwn ring rules caps p (corrOnContribution fp e c field).1 ∧
      ∀ o ∈ (corrOnContribution fp e c field).2, ∀ r, (admittedRules rules)[o.corr]? = some r →
        ring.owner r o.key = p := by
  refine h.call fp (c := .contribution c field) fun ci r key i hr htarget => ?_
  rw [CorrCall.target, if_neg hmerge] at htarget
  obtain ⟨hid, hvals⟩ := group_of_contribTarget hr htarget
  rw [← ring.hashed_ownerKey, ← hid, ← hvals, hp]

end Holds

/-! ## The ring

`LibSigma.Library.Network` with these peers and links.  Whatever the network does with the messages,
the two ways to hand partials over lead to the same peers, and no peer ever has a group of another
one. -/

section Ring

variable (fp : Doubles) (lib : JsonLib) (ring : PeerRing) (slots : ℕ)

/-- Partials as JSON objects, each with the name of its origin, to the peer of their key. -/
def PeerRing.jsonLink :
    Link (Fin ring.nPeers) CorrEngine CorrOutcome (CorrContrib × Option CStr) Json where
  send p := corrContribToJson p.1 p.2
  route j := ring.hashed (messageKey lib j)
  receive e j :=
    match corrContribFromJson lib j slots with
    | none => (e, [])
    | some c => corrOnContribution fp e c fun _ => none

/-- Partials handed over as they are, to the peer that `corr_owner_index` names. -/
def PeerRing.directLink :
    Link (Fin ring.nPeers) CorrEngine CorrOutcome (CorrContrib × Option CStr) CorrContrib where
  send p := if p.1.sendable then some p.1 else none
  route c := ⟨corrOwnerIndex c.corrId c.groupVals ring.nPeers, ring.corrOwnerIndex_lt _ _⟩
  receive e c := corrOnContribution fp e c fun _ => none

/-- Peers before the first event. -/
def PeerRing.newNet (rules : List CorrRule) (caps : CorrCaps) (M : Type) :
    Net (Fin ring.nPeers) CorrEngine CorrOutcome M :=
  ⟨fun _ => corrEngineNew rules caps, [], []⟩

variable {lib}

/-- **The wire refines the hand-over.**  For any events at any peers and any partials with all their
group values, no more than the receivers have slots for, in any order, and whatever becomes of the
messages: peers that send JSON objects are where they would be if each partial itself went to the owner
of its group, and have put out the same. -/
theorem wire_refines_direct (hlib : lib.Exact) (rules : List CorrRule) (caps : CorrCaps)
    (acts : List (NetAct (Fin ring.nPeers) CorrEvent (CorrContrib × Option CStr)))
    (hvals : ∀ p, NetAct.send p ∈ acts →
      p.1.CStrings ∧ p.1.groupVals.length ≤ slots ∧ ∀ v ∈ p.1.groupVals, v ≠ none) :
    let wire := (ring.newNet rules caps Json).run (ring.onEvent fp)
      (ring.jsonLink fp lib slots) acts
    let direct := (ring.newNet rules caps CorrContrib).run (ring.onEvent fp)
      (ring.directLink fp) acts
    wire.node = direct.node ∧ wire.log = direct.log := by
  have hnew : Net.Rel (ring.jsonLink fp lib slots) (ring.directLink fp)
      (ring.newNet rules caps Json) (ring.newNet rules caps CorrContrib) := ⟨rfl, rfl, .nil⟩
  suffices hsend : ∀ c, NetAct.send c ∈ acts → Option.Rel (Net.SameMessage
      (ring.jsonLink fp lib slots) (ring.directLink fp))
      ((ring.jsonLink fp lib slots).send c) ((ring.directLink fp).send c) by
    have hrel := Net.run_rel (ring.onEvent fp) acts hnew hsend
    exact ⟨hrel.node, hrel.log⟩
  · intro c hc
    show Option.Rel _ (corrContribToJson c.1 c.2) (if c.1.sendable then some c.1 else none)
    have hsome := corrContribToJson_isSome c.1 c.2
    cases hj : corrContribToJson c.1 c.2 with
    | none =>
      rw [hj, Option.isSome_none] at hsome
      rw [if_neg (by rw [← hsome]; exact Bool.false_ne_true)]
      exact .none
    | some j =>
      rw [hj, Option.isSome_some] at hsome
      rw [if_pos hsome.symm]
      obtain ⟨hnul, hroom, hall⟩ := hvals c hc
      obtain ⟨hmerge, hkey, hdecoded⟩ := arrives hlib hnul hj slots
      obtain ⟨c', hc', hsame⟩ := hdecoded hroom
      refine .some ⟨?_, fun e => ?_⟩
      · refine Fin.ext ?_
        show (ring.hashed (messageKey lib j)).val = corrOwnerIndex _ _ ring.nPeers
        rw [hkey, corrOwnerIndex, if_neg ring.pos.ne', djb2_ownerKey]
        rfl
      · show (match corrContribFromJson lib j slots with
          | none => (e, [])
          | some c => corrOnContribution fp e c fun _ => none) = _
        rw [hc']
        exact hsame.corrOnContribution_eq fp hmerge hall e _

/-- A partial for user `b`. -/
def partialOfB : CorrContrib where
  kind := some .count
  corrId := some (cstr "burst")
  rids := []
  groupVals := [some (cstr "b")]
  ts := 10
  value := none
  numeric := 0
  count := 0
  seenMask := 0

/-- It is delivered twice, after an event of the same user. -/
def deliveredTwice : List (NetAct (Fin sevenPeers.nPeers) CorrEvent (CorrContrib × Option CStr)) :=
  [.send (partialOfB, some (cstr "n0")), .copy 0, .input 5 (userEvent 7 0),
    .input 3 (otherEvent 7 50), .deliver 1, .deliver 0]

theorem wire_refines_direct_sample :
    ((sevenPeers.newNet [burstRule] capsZero Json).run (sevenPeers.onEvent .bare)
      (sevenPeers.jsonLink .bare JsonLib.strict 8) deliveredTwice).log.map
        (fun p => (p.1, p.2.key, p.2.decided)) =
      [(5, [cstr "a"], true), (3, [cstr "b"], true), (3, [cstr "b"], true),
        (3, [cstr "b"], true)] := by
  have hvals : ∀ p, NetAct.send p ∈ deliveredTwice →
      p.1.CStrings ∧ p.1.groupVals.length ≤ 8 ∧ ∀ v ∈ p.1.groupVals, v ≠ none := by
    intro p hp
    have heq : p = (partialOfB, some (cstr "n0")) := by simpa [deliveredTwice] using hp
    subst heq
    decide
  rw [(wire_refines_direct .bare sevenPeers 8 JsonLib.strict_exact [burstRule] capsZero
    deliveredTwice hvals).2]
  decide +kernel

/-- **A group lives at its owner.**  Whatever events the peers read, whatever partials are sent with no
more group values than the receivers have slots for, and whatever becomes of the messages: a peer holds
no group, and puts out nothing about one, that `corr_owner_index` gives to another peer. -/
theorem group_lives_at_owner (hlib : lib.Exact) (rules : List CorrRule) (caps : CorrCaps)
    (acts : List (NetAct (Fin ring.nPeers) CorrEvent (CorrContrib × Option CStr)))
    (hroom : ∀ p, NetAct.send p ∈ acts → p.1.CStrings ∧ p.1.groupVals.length ≤ slots) :
    let wire := (ring.newNet rules caps Json).run (ring.onEvent fp)
      (ring.jsonLink fp lib slots) acts
    ∀ p ci r key, (admittedRules rules)[ci]? = some r → ring.owner r key ≠ p →
      (wire.node p).slot ci key = none ∧
        ∀ o, (p, o) ∈ wire.log → ¬ (o.corr = ci ∧ o.key = key) := by
  have hnew : Net.Sound (HoldsOwn ring rules caps)
      (fun p o => ∀ r, (admittedRules rules)[o.corr]? = some r → ring.owner r o.key = p)
      (fun j => ∃ c : CorrContrib, c.groupVals.length ≤ slots ∧ Arrives lib c j slots)
      (ring.newNet rules caps Json) := by
    refine ⟨fun p => ⟨engineOk_new rules caps, fun ci r key _ hsome => ?_⟩, nofun, nofun⟩
    rw [PeerRing.newNet, slot_new] at hsome
    cases hsome
  suffices hreceive : ∀ j e, (∃ c : CorrContrib, c.groupVals.length ≤ slots ∧ Arrives lib c j slots) →
      HoldsOwn ring rules caps (ring.hashed (messageKey lib j)) e →
      HoldsOwn ring rules caps (ring.hashed (messageKey lib j))
          ((ring.jsonLink fp lib slots).receive e j).1 ∧
        ∀ o ∈ ((ring.jsonLink fp lib slots).receive e j).2, ∀ r,
          (admittedRules rules)[o.corr]? = some r →
            ring.owner r o.key = ring.hashed (messageKey lib j) by
    have hrun := Net.run_sound (ring.onEvent fp) (ring.jsonLink fp lib slots) acts hnew
      (fun p e ev h => h.onEvent fp ev) hreceive fun c j hc hj =>
        ⟨c.1, (hroom c hc).2, arrives hlib (hroom c hc).1 hj slots⟩
    intro wire p ci r key hr hother
    refine ⟨?_, fun o ho hand => hother ?_⟩
    · by_contra hslot
      exact hother ((hrun.node p).own ci r key hr (Option.isSome_iff_ne_none.mpr hslot))
    · obtain ⟨rfl, rfl⟩ := hand
      exact hrun.log p o ho r hr
  · rintro j e ⟨c, hslots, hmerge, hkey, hdecoded⟩ h
    obtain ⟨c', hc', hsame⟩ := hdecoded hslots
    show HoldsOwn ring rules caps _ (match corrContribFromJson lib j slots with
      | none => (e, [])
      | some c => corrOnContribution fp e c fun _ => none).1 ∧ ∀ o ∈ (match
        corrContribFromJson lib j slots with
      | none => (e, [])
      | some c => corrOnContribution fp e c fun _ => none).2, _
    rw [hc']
    refine h.contribution fp (hsame.kind ▸ hmerge) ?_ _
    show _ = ring.hashed (messageKey lib j)
    rw [hkey, hsame.corrId, hsame.group, ownerKey_getD]

theorem group_lives_at_owner_sample :
    (((sevenPeers.newNet [burstRule] capsZero Json).run (sevenPeers.onEvent .bare)
      (sevenPeers.jsonLink .bare JsonLib.strict 8) deliveredTwice).node 5).slot 0
        [cstr "b"] = none := by
  have hroom : ∀ p, NetAct.send p ∈ deliveredTwice →
      p.1.CStrings ∧ p.1.groupVals.length ≤ 8 := by
    intro p hp
    have heq : p = (partialOfB, some (cstr "n0")) := by simpa [deliveredTwice] using hp
    subst heq
    decide
  exact (group_lives_at_owner .bare sevenPeers 8 JsonLib.strict_exact [burstRule] capsZero
    deliveredTwice hroom 5 0 burstRule [cstr "b"] rfl (by decide +kernel)).1

end Ring

end LibSigma
