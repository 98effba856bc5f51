import CipherLink.Proofs.Crossing.Flow

/-!
# Messages that cross a link

Every step of a crossing keeps what callers were told in line with what they were
granted, and what was granted on its way in order. So whatever the schedule, the
read loop publishes what was sent, once and in the order of the grants.
-/

namespace CipherLink

namespace Crossing

variable {s r : Session} {orders : List (List (FrameOrder × Noise))} {c c' : Crossing}

structure Sound (s r : Session) (orders : List (List (FrameOrder × Noise))) (c : Crossing) :
    Prop where
  ledger : Ledger s orders c
  flow : ∃ heard unheard, Flow s r c heard unheard

theorem Sound.call {i : Nat} (h : Sound s r orders c) (hstep : c.call i = some c') :
    Sound s r orders c' := by
  obtain ⟨heard, unheard, hflow⟩ := h.flow
  rw [Crossing.call] at hstep
  split at hstep
  · next order noise rest results hcaller =>
    split at hstep
    all_goals
      obtain rfl := Option.some.inj hstep
      refine ⟨h.ledger.step [] hcaller rfl (List.append_nil _).symm ?_ ?_ ?_,
        heard, unheard, hflow.setCaller _ _⟩
    · simp [Caller.ahead, CallStage.order?]
    · simp [Caller.granted, Caller.successes, CallStage.parcel?]
    · rfl
    · simp [Caller.ahead, CallStage.order?]
    · simp [Caller.granted, Caller.successes, CallStage.parcel?, Except.toOption]
    · rfl
  · simp at hstep

theorem Sound.grant {i : Nat} (haccepts : ∀ own ∈ orders, ∀ o ∈ own, s.Accepts r o.1)
    (h : Sound s r orders c) (hstep : c.grant i = some c') : Sound s r orders c' := by
  obtain ⟨heard, unheard, hflow⟩ := h.flow
  rw [Crossing.grant] at hstep
  split at hstep
  · next rest order noise results hlock hcaller =>
    split at hstep
    · simp at hstep
    · obtain rfl := Option.some.inj hstep
      refine ⟨h.ledger.step [] hcaller rfl (List.append_nil _).symm ?_ ?_ ?_,
        heard, unheard, hflow.setCaller _ _⟩
      · simp [Caller.ahead, CallStage.order?]
      · simp [Caller.granted, Caller.successes, CallStage.parcel?, Except.toOption]
      · rfl
    · next frame encryptor hpack =>
      obtain rfl := Option.some.inj hstep
      obtain ⟨own, hown, o, ho, rfl⟩ := h.ledger.mem_orders hcaller
        (List.mem_append_left _ (List.mem_singleton_self _))
      refine ⟨h.ledger.step [⟨o.1, frame⟩] hcaller rfl rfl rfl ?_ ?_,
        heard, _, hflow.grant (haccepts own hown o ho) hlock hpack i _⟩
      · simp [Caller.granted, Caller.successes, CallStage.parcel?]
      · simp [Caller.uncounted, CallStage.parcel?, Parcel.wire, hold, setCaller, setWriter]
  · simp at hstep

theorem Sound.write (hmeets : s.Meets r) {size : Nat} (h : Sound s r orders c)
    (hstep : c.write size = some c') : Sound s r orders c' := by
  obtain ⟨heard, unheard, hflow⟩ := h.flow
  rw [Crossing.write] at hstep
  split at hstep
  · simp at hstep
  · next holder hlock =>
    rw [(hflow.sink_takes hmeets _).1] at hstep
    obtain rfl := Option.some.inj hstep
    exact ⟨⟨h.ledger.told, h.ledger.granted, h.ledger.sent⟩, heard, unheard,
      hflow.write hlock size⟩

theorem Sound.release (hmeets : s.Meets r) (h : Sound s r orders c)
    (hstep : c.release = some c') : Sound s r orders c' := by
  obtain ⟨heard, unheard, hflow⟩ := h.flow
  rw [Crossing.release] at hstep
  split at hstep
  · next i hlock =>
    rw [(hflow.sink_takes hmeets []).2] at hstep
    split at hstep
    · next hfault => simp at hfault
    · next rest p results hfault hcaller =>
      obtain rfl := Option.some.inj hstep
      have hleft : c.left = [] := by rw [left, hlock]
      obtain ⟨written, hsame, hwire⟩ := hflow.written
      obtain ⟨middle, source, arrived, hmiddle, hsource, harrived, hhearing⟩ := hflow.hearing
      rw [hleft] at hwire harrived
      refine ⟨h.ledger.step [] hcaller rfl (List.append_nil _).symm rfl ?_ rfl, heard,
        unheard, hflow.grants, hflow.published, hflow.packed, ⟨written, hsame, hwire⟩,
        hflow.carried, middle, source, arrived, hmiddle, hsource, harrived, hhearing⟩
      exact (List.append_nil _).symm
    · simp at hstep
  · simp at hstep

theorem Sound.count {i : Nat} (h : Sound s r orders c) (hstep : c.count i = some c') :
    Sound s r orders c' := by
  obtain ⟨heard, unheard, hflow⟩ := h.flow
  rw [Crossing.count] at hstep
  split at hstep
  · next rest p results hcaller =>
    obtain rfl := Option.some.inj hstep
    refine ⟨h.ledger.step [] hcaller rfl (List.append_nil _).symm ?_ ?_ ?_,
      heard, unheard, hflow.grants, hflow.published, hflow.packed, hflow.written, hflow.carried,
      hflow.hearing⟩
    · simp [Caller.ahead, CallStage.order?]
    · simp [Caller.granted, Caller.successes, CallStage.parcel?, Except.toOption, Parcel.receipt]
    · simp [Caller.uncounted, CallStage.parcel?, Parcel.wire]
  · simp at hstep

theorem Sound.carry (h : Sound s r orders c) (size : Nat) : Sound s r orders (c.carry size) := by
  obtain ⟨heard, unheard, hflow⟩ := h.flow
  exact ⟨⟨h.ledger.told, h.ledger.granted, h.ledger.sent⟩, heard, unheard, hflow.carry size⟩

theorem Sound.read (hmeets : s.Meets r) (h : Sound s r orders c) : Sound s r orders c.read := by
  obtain ⟨heard, unheard, hflow⟩ := h.flow
  obtain ⟨-, hsame, -⟩ | ⟨-, g, others, -, hnext⟩ := hflow.read hmeets
  · rwa [hsame]
  · refine ⟨?_, heard ++ [g], others, hnext⟩
    rw [read_eq]
    exact ⟨h.ledger.told, h.ledger.granted, h.ledger.sent⟩

theorem Sound.step (hmeets : s.Meets r) (haccepts : ∀ own ∈ orders, ∀ o ∈ own, s.Accepts r o.1)
    (h : Sound s r orders c) {next : Step} (hstep : c.step next = some c') :
    Sound s r orders c' := by
  cases next with
  | call i => exact h.call hstep
  | grant i => exact h.grant haccepts hstep
  | write size => exact h.write hmeets hstep
  | release => exact h.release hmeets hstep
  | count i => exact h.count hstep
  | carry size =>
    obtain rfl := Option.some.inj hstep
    exact h.carry size
  | read =>
    obtain rfl := Option.some.inj hstep
    exact h.read hmeets

theorem Sound.follow (hmeets : s.Meets r) (haccepts : ∀ own ∈ orders, ∀ o ∈ own, s.Accepts r o.1)
    (h : Sound s r orders c) {steps : List Step} (hrun : c.follow steps = some c') :
    Sound s r orders c' := by
  induction steps generalizing c with
  | nil =>
    obtain rfl := Option.some.inj hrun
    exact h
  | cons next steps ih =>
    obtain ⟨middle, hstep, hrest⟩ := Option.bind_eq_some_iff.mp hrun
    exact ih (h.step hmeets haccepts hstep) hrest

/-- Whether all that was granted was written and carried, and the read loop waits. -/
def Settled (c : Crossing) : Prop :=
  c.lock = none ∧ c.underway = [] ∧ c.receiver.read.1 = .waiting

instance (c : Crossing) : Decidable c.Settled :=
  inferInstanceAs (Decidable (_ ∧ _ ∧ _))

theorem Flow.settles (hmeets : s.Meets r) (h : Flow s r c heard unheard) (hlock : c.lock = none)
    (hunderway : c.underway = []) :
    ∃ n c', c.follow (List.replicate n .read) = some c' ∧ c'.Settled ∧ c'.grants = c.grants ∧
      c'.callers = c.callers := by
  -- With everything carried, each read hears one of the frames that are left.
  induction unheard generalizing c heard with
  | nil =>
    obtain ⟨hwaiting, -⟩ | ⟨-, g, others, hcons, -⟩ := h.read hmeets
    · exact ⟨0, c, rfl, ⟨hlock, hunderway, hwaiting⟩, rfl, rfl⟩
    · simp at hcons
  | cons g others ih =>
    obtain ⟨-, -, hdone⟩ | ⟨-, g', others', hcons, hnext⟩ := h.read hmeets
    · have hleft : c.left = [] := by rw [left, hlock]
      exact absurd (hdone hunderway hleft) (List.cons_ne_nil g others)
    · obtain ⟨rfl, rfl⟩ := List.cons.inj hcons
      have hsame := read_eq c
      obtain ⟨n, c', hrun, hsettled, hgrants, hcallers⟩ := ih hnext (by rw [hsame]; exact hlock)
        (by rw [hsame]; exact hunderway)
      rw [hsame] at hgrants hcallers
      exact ⟨n + 1, c', hrun, hsettled, hgrants, hcallers⟩

theorem Sound.settles (hmeets : s.Meets r) (h : Sound s r orders c) (hlock : c.lock = none) :
    ∃ later c', c.follow later = some c' ∧ c'.Settled ∧ c'.grants = c.grants ∧
      c'.callers = c.callers := by
  obtain ⟨heard, unheard, hflow⟩ := (h.carry c.underway.length).flow
  have hunderway : (c.carry c.underway.length).underway = [] := by
    rw [underway_carry, List.drop_length]
  obtain ⟨n, c', hrun, hrest⟩ := hflow.settles hmeets hlock hunderway
  exact ⟨.carry c.underway.length :: List.replicate n .read, c', hrun, hrest⟩

theorem Sound.settled (hmeets : s.Meets r) (h : Sound s r orders c) (hsettled : c.Settled) :
    c.published = c.grants.filterMap (Grant.publication r.id) ∧
      ((∀ caller ∈ c.callers, caller.stage.parcel? = none) →
        c.receiver.received - r.received = c.sender.sent - s.sent) := by
  obtain ⟨heard, unheard, hflow⟩ := h.flow
  obtain ⟨hlock, hunderway, hwaiting⟩ := hsettled
  have hleft : c.left = [] := by rw [left, hlock]
  obtain rfl : unheard = [] := by
    obtain ⟨-, -, hdone⟩ | ⟨hhears, -⟩ := hflow.read hmeets
    · exact hdone hunderway hleft
    · exact absurd hwaiting hhears
  have hgrants := hflow.grants
  rw [List.append_nil] at hgrants
  refine ⟨by rw [hflow.published, hgrants], ?_⟩
  intro hcounted
  obtain ⟨_, _, _, -, -, -, hhearing⟩ := hflow.hearing
  have hreceived : c.receiver.received =
      r.received + UInt64.ofNat (Parcel.wire c.parcels).length := by
    rw [hhearing, parcels, hgrants]
    rfl
  have hnone : (c.callers.map Caller.uncounted).sum = 0 := by
    have hzero : c.callers.map Caller.uncounted = c.callers.map fun _ => 0 := by
      apply List.map_congr_left
      intro caller hmem
      rw [Caller.uncounted, hcounted caller hmem]
      rfl
    simp [hzero]
  have hsent : c.sender.sent = s.sent + UInt64.ofNat (Parcel.wire c.parcels).length := by
    rw [← h.ledger.sent, hnone]
    exact (UInt64.add_zero _).symm
  rw [hreceived, hsent, UInt64.add_comm, UInt64.add_sub_cancel, UInt64.add_comm,
    UInt64.add_sub_cancel]

end Crossing

/-- Whatever calls send over a session at the same time, and however their steps
interleave with the reads at the other end: the frames are on the wire one behind the
other, in the order in which the writer was given away and in one chain; the read
loop has published a front of them, each under its key and with its own size; each
caller is told of its own, in the order of its orders. When nothing more is to be
read, all were published, and once all were counted the counters of the two ends have
grown alike. -/
theorem crossing_delivers {s r : Session} (hmeets : s.Meets r)
    {orders : List (List (FrameOrder × Noise))}
    (haccepts : ∀ own ∈ orders, ∀ o ∈ own, s.Accepts r o.1) {steps : List Crossing.Step}
    {c : Crossing} (hrun : (Crossing.between s r orders).follow steps = some c) :
    (∃ written, c.writer.sink.taken = s.channel.writer.sink.taken ++ written ∧
      written ++ c.left = Parcel.wire c.parcels ∧
      s.channel.writer.encryptor.PacksAll s.channel.writer.block s.channel.writer.limit
        s.channel.writer.codec c.parcels c.writer.encryptor) ∧
    (∃ heard unheard, c.grants = heard ++ unheard ∧
      c.published = heard.filterMap (Grant.publication r.id)) ∧
    (∀ (i : Nat) (caller : Caller), c.callers[i]? = some caller →
      (∃ own, orders[i]? = some own ∧
        caller.results.map Prod.fst ++ caller.ahead = own.map Prod.fst) ∧
      caller.granted = (c.grantsOf i).map Parcel.receipt) ∧
    (c.Settled → c.published = c.grants.filterMap (Grant.publication r.id) ∧
      ((∀ caller ∈ c.callers, caller.stage.parcel? = none) →
        c.receiver.received - r.received = c.sender.sent - s.sent)) ∧
    (c.lock = none → ∃ later c', c.follow later = some c' ∧ c'.Settled ∧
      c'.grants = c.grants ∧ c'.callers = c.callers) := by
  have hsound : Crossing.Sound s r orders c := by
    have hstart : Crossing.Sound s r orders (.between s r orders) :=
      ⟨Crossing.ledger_between s r orders, [], [], Crossing.flow_between hmeets orders⟩
    exact hstart.follow hmeets haccepts hrun
  obtain ⟨heard, unheard, hflow⟩ := hsound.flow
  obtain ⟨written, hwriter, hwire⟩ := hflow.written
  refine ⟨⟨written, ?_, hwire, hflow.packed⟩, ⟨heard, unheard, hflow.grants, hflow.published⟩, ?_,
    hsound.settled hmeets, hsound.settles hmeets⟩
  · rw [hwriter]
    rfl
  · intro i caller hcaller
    exact ⟨hsound.ledger.told i caller hcaller, hsound.ledger.granted i caller hcaller⟩

def Session.plain (id limit : Nat) : Session :=
  let link : Link := ⟨⟨KeyExchangeAlgorithm.identity.descriptor,
    SymmetricAlgorithm.identity.descriptor, 16⟩, ⟨.identity, .zero⟩, ⟨.identity, .zero⟩⟩
  .start (.ofNat id) (.ofLink link limit .live)

theorem Session.plain_meets (id id' limit limit' : Nat) :
    (plain id limit).Meets (plain id' limit') := by
  have hencryptor : SymmetricAlgorithm.identity.encryptor ⟨[], []⟩ = .ok ⟨.identity, .zero⟩ := rfl
  have hdecryptor : SymmetricAlgorithm.identity.decryptor ⟨[], []⟩ = .ok ⟨.identity, .zero⟩ := rfl
  exact meets_of_links hencryptor hdecryptor rfl (show 0 < 16 by decide)
    (show Cipher.blockLength ∣ 16 by decide) _ _ _ _ _

/-- A caller with a message and an empty frame, and one with another message: the
second is given the writer first, and its frame is written, carried and read in
pieces. -/
theorem crossing_delivers_two_callers :
    let s := Session.plain 1 64
    let r := Session.plain 2 64
    let orders : List (List (FrameOrder × Noise)) :=
      [[(.message ⟨5, none, [1]⟩, fun _ => 7), (.empty, fun _ => 8)],
        [(.message ⟨6, some (.ofNat 9), [2]⟩, fun _ => 9)]]
    let steps : List Crossing.Step := [.call 0, .call 1, .grant 1, .write 20, .carry 30, .read,
      .write 44, .release, .grant 0, .carry 50, .read, .write 48, .count 1, .release, .count 0,
      .call 0, .grant 0, .write 16, .release, .carry 60, .read, .read, .count 0]
    s.Meets r ∧ (∀ own ∈ orders, ∀ o ∈ own, s.Accepts r o.1) ∧
      ∃ c, (Crossing.between s r orders).follow steps = some c ∧
        c.grants.map Grant.caller = [1, 0, 0] ∧
        c.published = c.grants.filterMap (Grant.publication r.id) ∧
        c.receiver.received - r.received = c.sender.sent - s.sent := by
  intro s r orders steps
  have hrun : ((Crossing.between s r orders).follow steps).map (fun c =>
      (c.grants.map Grant.caller, decide c.Settled,
        c.callers.map fun caller => caller.stage.parcel?)) =
      some ([1, 0, 0], true, [none, none]) := by
    decide +kernel
  obtain ⟨c, hfollow, hrun⟩ := Option.map_eq_some_iff.mp hrun
  simp only [Prod.mk.injEq, decide_eq_true_eq] at hrun
  obtain ⟨hgrants, hsettled, hcallers⟩ := hrun
  have hmeets : s.Meets r := Session.plain_meets 1 2 64 64
  have haccepts : ∀ own ∈ orders, ∀ o ∈ own, s.Accepts r o.1 := fun _ _ _ _ _ _ h => h
  obtain ⟨-, -, -, hall, -⟩ := crossing_delivers hmeets haccepts hfollow
  obtain ⟨hpublished, hcounted⟩ := hall hsettled
  refine ⟨hmeets, haccepts, c, hfollow, hgrants, hpublished, hcounted ?_⟩
  intro caller hmem
  have hstage := List.mem_map_of_mem (f := fun caller => caller.stage.parcel?) hmem
  rw [hcallers] at hstage
  simpa using hstage

/-- A message that only the limit of its sender lets through is sent and never
published, and the counter of the sender lags behind until the call is over. -/
theorem crossing_larger_refused :
    let s := Session.plain 1 64
    let narrow := Session.plain 2 16
    let wide := Session.plain 2 64
    let orders : List (List (FrameOrder × Noise)) := [[(.message ⟨5, none, [1]⟩, fun _ => 7)]]
    let steps : List Crossing.Step := [.call 0, .grant 0, .write 32, .release, .carry 32, .read]
    s.Meets narrow ∧ s.Meets wide ∧
    (∃ c, (Crossing.between s narrow orders).follow (steps ++ [.count 0]) = some c ∧
      c.callers.map Caller.successes = [[(.message ⟨5, none, [1]⟩, 32)]] ∧ c.Settled ∧
      c.published = [] ∧ c.sender.sent = 32 ∧ c.receiver.received = 0) ∧
    ∃ c, (Crossing.between s wide orders).follow steps = some c ∧ c.Settled ∧
      c.published = [⟨5, ⟨5, none, [1]⟩, ⟨.ofNat 2, 32⟩⟩] ∧
      c.sender.sent = 0 ∧ c.receiver.received = 32 := by
  intro s narrow wide orders steps
  have hrefused : ((Crossing.between s narrow orders).follow (steps ++ [.count 0])).map (fun c =>
      (c.callers.map Caller.successes, decide c.Settled, c.published, c.sender.sent,
        c.receiver.received)) =
      some ([[(.message ⟨5, none, [1]⟩, 32)]], true, [], 32, 0) := by
    decide +kernel
  have hlagging : ((Crossing.between s wide orders).follow steps).map (fun c =>
      (decide c.Settled, c.published, c.sender.sent, c.receiver.received)) =
      some (true, [⟨5, ⟨5, none, [1]⟩, ⟨.ofNat 2, 32⟩⟩], 0, 32) := by
    decide +kernel
  obtain ⟨c, hfollow, hc⟩ := Option.map_eq_some_iff.mp hrefused
  obtain ⟨d, hfollow', hd⟩ := Option.map_eq_some_iff.mp hlagging
  simp only [Prod.mk.injEq, decide_eq_true_eq] at hc hd
  exact ⟨Session.plain_meets 1 2 64 16, Session.plain_meets 1 2 64 64, ⟨c, hfollow, hc⟩, d,
    hfollow', hd⟩

end CipherLink
