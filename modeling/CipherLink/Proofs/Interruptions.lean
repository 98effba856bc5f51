import CipherLink.Proofs.Dialogues

/-!
# Dialogues that break off

Wherever a run of a dialogue stops, because it is done or fails or because the stream
or the time comes to an end, it has heard and sent just what the dialogue asks for up
to that point. A dialogue that speaks hears nothing, one that listens sends nothing,
and both hold of two such dialogues one after the other.
-/

namespace CipherLink

def HandshakeError.IsInterruption : HandshakeError → Prop
  | .timeout _ | .transport _ => True
  | _ => False

namespace Source

def Fill.rest : Fill → Source
  | .full _ rest | .failed _ _ rest | .silent rest => rest
  | .ended _ => []

theorem exists_front (left : Nat) (before : Bytes) (source : Source) :
    (∃ bytes rest, fillFrom left before source = .full bytes rest) ∨
      ∃ front : Bytes, front.length < left ∧
        source.bytes = front ++ (fillFrom left before source).rest.bytes := by
  have hfills := source.fills_fillFrom left before
  generalize fillFrom left before source = fill at hfills
  cases hfills with
  | full length stream => exact .inl ⟨_, _, rfl⟩
  | @ended front length delivers => exact .inr ⟨front, length, delivers.bytes⟩
  | @failed front fault rest length delivers => exact .inr ⟨front, length, delivers.bytes⟩
  | @silent front rest length delivers => exact .inr ⟨front, length, delivers.bytes⟩

end Source

theorem Sink.write_eq_error {sink sink' : Sink} {bs : Bytes} {fault : StreamFault}
    (h : sink.write bs = (sink', some fault)) :
    ∃ part, part <+: bs ∧ sink'.taken = sink.taken ++ part := by
  have hflush : sink.writeFlush bs = (sink', some fault) := by rw [writeFlush, h]
  obtain hall | ⟨part, _, hpart, hsome⟩ := sink.writeFlush_cases bs
  · simp [hall] at hflush
  · rw [hsome, Prod.mk.injEq] at hflush
    exact ⟨part, hpart, by rw [← hflush.1]⟩

namespace Dialogue

variable {α β : Type}

/-- What a dialogue may have heard and sent when it stops, with its result. -/
inductive Admits : Dialogue α → Bytes → Bytes → Except HandshakeError α → Prop
  | done (result : α) : Admits (.done result) [] [] (.ok result)
  | failed (cause : HandshakeError) : Admits (.failed cause) [] [] (.error cause)
  | sendCut {bytes part : Bytes} {next : Dialogue α} {cause : HandshakeError}
      (hpart : part <+: bytes) (hcause : cause.IsInterruption) :
      Admits (.send bytes next) [] part (.error cause)
  | send {bytes heard sent : Bytes} {next : Dialogue α} {result : Except HandshakeError α}
      (h : Admits next heard sent result) : Admits (.send bytes next) heard (bytes ++ sent) result
  | flushCut {next : Dialogue α} {cause : HandshakeError} (hcause : cause.IsInterruption) :
      Admits (.flush next) [] [] (.error cause)
  | flush {heard sent : Bytes} {next : Dialogue α} {result : Except HandshakeError α}
      (h : Admits next heard sent result) : Admits (.flush next) heard sent result
  | receiveCut {awaited : Awaited} {part : Bytes} {n : Nat} {next : Bytes → Dialogue α}
      {cause : HandshakeError} (hpart : part = [] ∨ part.length < n)
      (hcause : cause.IsInterruption) :
      Admits (.receive awaited n next) part [] (.error cause)
  | receive {awaited : Awaited} {bytes heard sent : Bytes} {next : Bytes → Dialogue α}
      {result : Except HandshakeError α} (h : Admits (next bytes) heard sent result) :
      Admits (.receive awaited bytes.length next) (bytes ++ heard) sent result
  | enter {phase : Phase} {heard sent : Bytes} {next : Dialogue α}
      {result : Except HandshakeError α} (h : Admits next heard sent result) :
      Admits (.enter phase next) heard sent result
  | keep {files : KeyFiles} {heard sent : Bytes} {next : Dialogue α}
      {result : Except HandshakeError α} (h : Admits next heard sent result) :
      Admits (.keep files next) heard sent result

theorem admits_run (patience : Duration) (d : Dialogue α) (phase : Phase) (files : KeyFiles)
    (source : Source) (sink : Sink) :
    ∃ heard sent, source.bytes =
        heard ++ (d.run patience phase files source sink).source.bytes ∧
      (d.run patience phase files source sink).sink.taken = sink.taken ++ sent ∧
      d.Admits heard sent (d.run patience phase files source sink).result := by
  induction d generalizing phase files source sink with
  | done result => exact ⟨[], [], rfl, (List.append_nil _).symm, .done result⟩
  | failed cause => exact ⟨[], [], rfl, (List.append_nil _).symm, .failed cause⟩
  | send bytes next ih =>
    simp only [run]
    split
    · next written hwrite =>
      obtain ⟨heard, sent, hheard, hsent, hnext⟩ := ih phase files source written
      refine ⟨heard, bytes ++ sent, hheard, ?_, .send hnext⟩
      rw [hsent, Sink.write_eq_ok hwrite, List.append_assoc]
    · next written fault hwrite =>
      obtain ⟨part, hpart, htaken⟩ := Sink.write_eq_error hwrite
      exact ⟨[], part, rfl, htaken, .sendCut hpart trivial⟩
  | flush next ih =>
    simp only [run]
    split
    · obtain ⟨heard, sent, hheard, hsent, hnext⟩ := ih phase files source sink
      exact ⟨heard, sent, hheard, hsent, .flush hnext⟩
    · exact ⟨[], [], rfl, (List.append_nil _).symm, .flushCut trivial⟩
  | receive awaited n next ih =>
    have hfront := source.exists_front n []
    change (∃ bytes rest, source.fill n = .full bytes rest) ∨ ∃ front : Bytes, front.length < n ∧
      source.bytes = front ++ (source.fill n).rest.bytes at hfront
    simp only [run]
    split
    · next bytes rest hfill =>
      obtain ⟨heard, sent, hheard, hsent, hnext⟩ := ih bytes phase files rest sink
      obtain ⟨hsource, rfl⟩ := Bytes.split?_eq_some (Source.split?_bytes hfill)
      exact ⟨bytes ++ heard, sent, by rw [hsource, hheard, List.append_assoc], hsent,
        .receive hnext⟩
    all_goals
      next hfill =>
      rw [hfill] at hfront
      obtain ⟨_, _, hfull⟩ | ⟨front, hshort, hbytes⟩ := hfront
      · simp at hfull
      · exact ⟨front, [], hbytes, (List.append_nil _).symm, .receiveCut (.inr hshort) trivial⟩
  | enter reached next ih =>
    obtain ⟨heard, sent, hheard, hsent, hnext⟩ := ih reached files source sink
    exact ⟨heard, sent, hheard, hsent, .enter hnext⟩
  | keep kept next ih =>
    obtain ⟨heard, sent, hheard, hsent, hnext⟩ := ih phase kept source sink
    exact ⟨heard, sent, hheard, hsent, .keep hnext⟩

variable {heard sent : Bytes}

theorem admits_of_expire {elapsed : Duration} {n : Nat} {d : Dialogue α}
    {result : Except HandshakeError α} (h : (d.expire elapsed n).Admits heard sent result) :
    d.Admits heard sent result := by
  induction d generalizing n heard sent with
  | done value => simpa only [expire] using h
  | failed cause => simpa only [expire] using h
  | send bytes next ih =>
    cases n with
    | zero =>
      cases h
      exact .sendCut List.nil_prefix trivial
    | succ n =>
      cases h with
      | sendCut hpart hcause => exact .sendCut hpart hcause
      | send h => exact .send (ih h)
  | flush next ih =>
    cases n with
    | zero =>
      cases h
      exact .flushCut trivial
    | succ n =>
      cases h with
      | flushCut hcause => exact .flushCut hcause
      | flush h => exact .flush (ih h)
  | receive awaited length next ih =>
    cases n with
    | zero =>
      cases h
      exact .receiveCut (.inl rfl) trivial
    | succ n =>
      cases h with
      | receiveCut hpart hcause => exact .receiveCut hpart hcause
      | receive h => exact .receive (ih _ h)
  | enter phase next ih =>
    simp only [expire] at h
    cases h with
    | enter h => exact .enter (ih h)
  | keep files next ih =>
    simp only [expire] at h
    cases h with
    | keep h => exact .keep (ih h)

theorem admits_bind {d : Dialogue α} {f : α → Dialogue β} {result : Except HandshakeError β}
    (h : (d >>= f).Admits heard sent result) :
    (∃ cause, result = .error cause ∧ d.Admits heard sent (.error cause)) ∨
      ∃ a first rest said more, heard = first ++ rest ∧ sent = said ++ more ∧
        d.Admits first said (.ok a) ∧ (f a).Admits rest more result := by
  change (d.bind f).Admits heard sent result at h
  induction d generalizing heard sent with
  | done value => exact .inr ⟨value, [], heard, [], sent, rfl, rfl, .done value, h⟩
  | failed cause =>
    cases h
    exact .inl ⟨cause, rfl, .failed cause⟩
  | send bytes next ih =>
    cases h with
    | sendCut hpart hcause => exact .inl ⟨_, rfl, .sendCut hpart hcause⟩
    | send h =>
      obtain ⟨cause, hresult, h⟩ | ⟨a, first, rest, said, more, rfl, rfl, h, hf⟩ := ih h
      · exact .inl ⟨cause, hresult, .send h⟩
      · exact .inr ⟨a, first, rest, bytes ++ said, more, rfl, (List.append_assoc ..).symm,
          .send h, hf⟩
  | flush next ih =>
    cases h with
    | flushCut hcause => exact .inl ⟨_, rfl, .flushCut hcause⟩
    | flush h =>
      obtain ⟨cause, hresult, h⟩ | ⟨a, first, rest, said, more, hheard, hsent, h, hf⟩ := ih h
      · exact .inl ⟨cause, hresult, .flush h⟩
      · exact .inr ⟨a, first, rest, said, more, hheard, hsent, .flush h, hf⟩
  | receive awaited n next ih =>
    cases h with
    | receiveCut hpart hcause => exact .inl ⟨_, rfl, .receiveCut hpart hcause⟩
    | receive h =>
      obtain ⟨cause, hresult, h⟩ | ⟨a, first, rest, said, more, rfl, rfl, h, hf⟩ := ih _ h
      · exact .inl ⟨cause, hresult, .receive h⟩
      · exact .inr ⟨a, _ ++ first, rest, said, more, (List.append_assoc ..).symm, rfl,
          .receive h, hf⟩
  | enter phase next ih =>
    cases h with
    | enter h =>
      obtain ⟨cause, hresult, h⟩ | ⟨a, first, rest, said, more, hheard, hsent, h, hf⟩ := ih h
      · exact .inl ⟨cause, hresult, .enter h⟩
      · exact .inr ⟨a, first, rest, said, more, hheard, hsent, .enter h, hf⟩
  | keep files next ih =>
    cases h with
    | keep h =>
      obtain ⟨cause, hresult, h⟩ | ⟨a, first, rest, said, more, hheard, hsent, h, hf⟩ := ih h
      · exact .inl ⟨cause, hresult, .keep h⟩
      · exact .inr ⟨a, first, rest, said, more, hheard, hsent, .keep h, hf⟩

theorem converse_of_admits {d : Dialogue α} {a : α} (h : d.Admits heard sent (.ok a))
    (behind : Bytes) : d.converse (heard ++ behind) = some (a, sent, behind) := by
  generalize hresult : Except.ok a = result at h
  induction h with
  | done value =>
    obtain rfl := Except.ok.inj hresult
    rfl
  | failed cause => simp at hresult
  | sendCut => simp at hresult
  | send _ ih => rw [converse, ih hresult, Option.map_some]
  | flushCut => simp at hresult
  | flush _ ih => exact ih hresult
  | receiveCut => simp at hresult
  | receive _ ih =>
    rw [converse, List.append_assoc, Bytes.split?_append]
    exact ih hresult
  | enter _ ih => exact ih hresult
  | keep _ ih => exact ih hresult

/-- Whether a dialogue never finds that the two sides have nothing in common. -/
def Agrees (d : Dialogue α) : Prop :=
  ∀ heard sent stage, ¬d.Admits heard sent (.error (.noCommonAlgorithm stage))

/-- Whether a dialogue hears nothing and sends these bytes, or a front of them when it
breaks off. -/
def Speaks (d : Dialogue α) (bytes : Bytes) : Prop :=
  ∀ heard sent result, d.Admits heard sent result →
    heard = [] ∧ sent <+: bytes ∧ ∀ a, result = .ok a → sent = bytes

def Listens (d : Dialogue α) : Prop :=
  ∀ heard sent result, d.Admits heard sent result → sent = []

theorem agrees_bind {d : Dialogue α} {f : α → Dialogue β} (h : d.Agrees) (hf : ∀ a, (f a).Agrees) :
    (d >>= f).Agrees := by
  intro heard sent stage hadmits
  obtain ⟨cause, hcause, hd⟩ | ⟨a, _, _, _, _, -, -, -, hnext⟩ := admits_bind hadmits
  · obtain rfl := Except.error.inj hcause
    exact h _ _ _ hd
  · exact hf a _ _ _ hnext

theorem speaks_bind {d : Dialogue α} {f : α → Dialogue β} {bytes more : Bytes}
    (h : d.Speaks bytes) (hf : ∀ a heard sent, d.Admits heard sent (.ok a) → (f a).Speaks more) :
    (d >>= f).Speaks (bytes ++ more) := by
  intro heard sent result hadmits
  obtain ⟨cause, rfl, hd⟩ | ⟨a, first, rest, said, others, rfl, rfl, hd, hnext⟩ :=
    admits_bind hadmits
  · obtain ⟨hheard, hsent, -⟩ := h _ _ _ hd
    exact ⟨hheard, hsent.trans (List.prefix_append _ _), nofun⟩
  · obtain ⟨rfl, -, hsaid⟩ := h _ _ _ hd
    obtain ⟨rfl, hothers, hall⟩ := hf a _ _ hd _ _ _ hnext
    rw [hsaid a rfl]
    exact ⟨rfl, (List.prefix_append_right_inj bytes).mpr hothers,
      fun b hb => by rw [hall b hb]⟩

theorem listens_bind {d : Dialogue α} {f : α → Dialogue β} (h : d.Listens)
    (hf : ∀ a, (f a).Listens) : (d >>= f).Listens := by
  intro heard sent result hadmits
  obtain ⟨cause, -, hd⟩ | ⟨a, _, _, _, _, -, rfl, hd, hnext⟩ := admits_bind hadmits
  · exact h _ _ _ hd
  · rw [h _ _ _ hd, hf a _ _ _ hnext, List.nil_append]

theorem Speaks.listens {d : Dialogue α} (h : d.Speaks []) : d.Listens :=
  fun _ _ _ hadmits => List.prefix_nil.mp (h _ _ _ hadmits).2.1

theorem agrees_done (a : α) : (done a).Agrees := nofun

theorem speaks_done (a : α) : (done a).Speaks [] := by
  rintro _ _ _ ⟨⟩
  exact ⟨rfl, List.prefix_refl _, fun _ _ => rfl⟩

theorem agrees_failed {cause : HandshakeError} (h : ∀ stage, cause ≠ .noCommonAlgorithm stage) :
    (failed cause : Dialogue α).Agrees := by
  rintro _ _ stage ⟨⟩
  exact h stage rfl

theorem speaks_failed (cause : HandshakeError) (bytes : Bytes) :
    (failed cause : Dialogue α).Speaks bytes := by
  rintro _ _ _ ⟨⟩
  exact ⟨rfl, List.nil_prefix, nofun⟩

theorem agrees_ofCrypto (x : Except CryptoError α) : (ofCrypto x).Agrees := by
  cases x with
  | ok a => exact agrees_done a
  | error cause => exact agrees_failed nofun

theorem speaks_ofCrypto (x : Except CryptoError α) : (ofCrypto x).Speaks [] := by
  cases x with
  | ok a => exact speaks_done a
  | error cause => exact speaks_failed _ _

theorem agrees_send {bytes : Bytes} {next : Dialogue α} (h : next.Agrees) :
    (send bytes next).Agrees := by
  intro heard sent stage hadmits
  cases hadmits with
  | sendCut _ hcause => exact hcause
  | send hnext => exact h _ _ _ hnext

theorem speaks_send {bytes more : Bytes} {next : Dialogue α} (h : next.Speaks more) :
    (send bytes next).Speaks (bytes ++ more) := by
  intro heard sent result hadmits
  cases hadmits with
  | sendCut hpart => exact ⟨rfl, hpart.trans (List.prefix_append _ _), nofun⟩
  | send hnext =>
    obtain ⟨hheard, hsent, hall⟩ := h _ _ _ hnext
    exact ⟨hheard, (List.prefix_append_right_inj bytes).mpr hsent,
      fun a ha => by rw [hall a ha]⟩

theorem agrees_flush {next : Dialogue α} (h : next.Agrees) : (flush next).Agrees := by
  intro heard sent stage hadmits
  cases hadmits with
  | flushCut hcause => exact hcause
  | flush hnext => exact h _ _ _ hnext

theorem speaks_flush {bytes : Bytes} {next : Dialogue α} (h : next.Speaks bytes) :
    (flush next).Speaks bytes := by
  intro heard sent result hadmits
  cases hadmits with
  | flushCut => exact ⟨rfl, List.nil_prefix, nofun⟩
  | flush hnext => exact h _ _ _ hnext

theorem agrees_receive {awaited : Awaited} {n : Nat} {next : Bytes → Dialogue α}
    (h : ∀ bytes, (next bytes).Agrees) : (receive awaited n next).Agrees := by
  intro heard sent stage hadmits
  cases hadmits with
  | receiveCut _ hcause => exact hcause
  | receive hnext => exact h _ _ _ _ hnext

theorem listens_receive {awaited : Awaited} {n : Nat} {next : Bytes → Dialogue α}
    (h : ∀ bytes, (next bytes).Listens) : (receive awaited n next).Listens := by
  intro heard sent result hadmits
  cases hadmits with
  | receiveCut => rfl
  | receive hnext => exact h _ _ _ _ hnext

theorem agrees_enter {phase : Phase} {next : Dialogue α} (h : next.Agrees) :
    (enter phase next).Agrees := by
  rintro _ _ stage ⟨⟩
  exact h _ _ _ ‹_›

theorem speaks_enter {phase : Phase} {bytes : Bytes} {next : Dialogue α}
    (h : next.Speaks bytes) : (enter phase next).Speaks bytes := by
  rintro _ _ _ ⟨⟩
  exact h _ _ _ ‹_›

theorem agrees_keep {files : KeyFiles} {next : Dialogue α} (h : next.Agrees) :
    (keep files next).Agrees := by
  rintro _ _ stage ⟨⟩
  exact h _ _ _ ‹_›

theorem speaks_keep {files : KeyFiles} {bytes : Bytes} {next : Dialogue α}
    (h : next.Speaks bytes) : (keep files next).Speaks bytes := by
  rintro _ _ _ ⟨⟩
  exact h _ _ _ ‹_›

end Dialogue

end CipherLink
