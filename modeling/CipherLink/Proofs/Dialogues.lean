import CipherLink.Dialogue.Pair
import CipherLink.Proofs.Streams

/-!
# What a dialogue hears and sends

A dialogue is a function of the bytes it hears: they determine its result, what
it sends and what it leaves unheard. A run that succeeds agrees with this
function, and so does each side of a pair, in whatever order the sides take their
steps.
-/

namespace CipherLink

namespace Dialogue

variable {α β : Type}

/-- The result of a dialogue that hears these bytes, with the bytes that it sends
and those that it leaves. -/
def converse : Dialogue α → Bytes → Option (α × Bytes × Bytes)
  | .done result, heard => some (result, [], heard)
  | .failed _, _ => none
  | .send bytes next, heard =>
    (next.converse heard).map fun (result, sent, rest) => (result, bytes ++ sent, rest)
  | .flush next, heard => next.converse heard
  | .receive _ n next, heard =>
    match Bytes.split? n heard with
    | some (bytes, rest) => (next bytes).converse rest
    | none => none
  | .enter _ next, heard => next.converse heard
  | .keep _ next, heard => next.converse heard

theorem converse_bind (d : Dialogue α) (f : α → Dialogue β) (heard : Bytes) :
    (d >>= f).converse heard = (d.converse heard).bind fun (a, sent, rest) =>
      ((f a).converse rest).map fun (b, more, rest) => (b, sent ++ more, rest) := by
  change (d.bind f).converse heard = _
  induction d generalizing heard with
  | done result =>
    simp only [bind, converse, Option.bind_some, List.nil_append]
    exact Option.map_id'.symm
  | failed cause => rfl
  | send bytes next ih =>
    simp only [bind, converse, ih, Option.map_bind, Option.bind_map, Function.comp_def,
      Option.map_map, List.append_assoc]
  | flush next ih => exact ih heard
  | receive awaited n next ih =>
    simp only [bind, converse]
    cases Bytes.split? n heard with
    | none => rfl
    | some parts => exact ih parts.1 parts.2
  | enter phase next ih => exact ih heard
  | keep files next ih => exact ih heard

theorem converse_bind_eq_some {d : Dialogue α} {f : α → Dialogue β} {heard sent rest : Bytes}
    {b : β} (h : (d >>= f).converse heard = some (b, sent, rest)) :
    ∃ a first middle last, d.converse heard = some (a, first, middle) ∧
      (f a).converse middle = some (b, last, rest) ∧ sent = first ++ last := by
  rw [converse_bind] at h
  obtain ⟨⟨a, first, middle⟩, hfirst, h⟩ := Option.bind_eq_some_iff.mp h
  obtain ⟨⟨b', last, rest'⟩, hlast, h⟩ := Option.map_eq_some_iff.mp h
  simp only [Prod.mk.injEq] at h
  obtain ⟨rfl, rfl, rfl⟩ := h
  exact ⟨a, first, middle, last, hfirst, hlast, rfl⟩

theorem converse_ofCrypto {x : Except CryptoError α} {heard sent rest : Bytes} {a : α}
    (h : (ofCrypto x).converse heard = some (a, sent, rest)) :
    x = .ok a ∧ sent = [] ∧ rest = heard := by
  cases x with
  | error cause => simp [ofCrypto, converse] at h
  | ok b =>
    simp only [ofCrypto, converse, Option.some.injEq, Prod.mk.injEq] at h
    obtain ⟨rfl, rfl, rfl⟩ := h
    exact ⟨rfl, rfl, rfl⟩

theorem converse_expire {elapsed : Duration} {n : Nat} {d : Dialogue α} {heard : Bytes}
    {ending : α × Bytes × Bytes} (h : (d.expire elapsed n).converse heard = some ending) :
    d.converse heard = some ending := by
  induction d generalizing n heard ending with
  | done result => simpa only [expire] using h
  | failed cause => simpa only [expire] using h
  | send bytes next ih =>
    cases n with
    | zero => simp [expire, converse] at h
    | succ n =>
      simp only [expire, converse] at h ⊢
      obtain ⟨last, hlast, rfl⟩ := Option.map_eq_some_iff.mp h
      rw [ih hlast, Option.map_some]
  | flush next ih =>
    cases n with
    | zero => simp [expire, converse] at h
    | succ n => exact ih h
  | receive awaited length next ih =>
    cases n with
    | zero => simp [expire, converse] at h
    | succ n =>
      simp only [expire, converse] at h ⊢
      split at h
      · exact ih _ h
      · simp at h
  | enter phase next ih =>
    simp only [expire, converse] at h ⊢
    exact ih h
  | keep files next ih =>
    simp only [expire, converse] at h ⊢
    exact ih h

theorem run_ok {patience : Duration} {d : Dialogue α} {phase : Phase} {files : KeyFiles}
    {source : Source} {sink : Sink} {a : α}
    (h : (d.run patience phase files source sink).result = .ok a) :
    ∃ sent, d.converse source.bytes =
        some (a, sent, (d.run patience phase files source sink).source.bytes) ∧
      (d.run patience phase files source sink).sink.taken = sink.taken ++ sent := by
  induction d generalizing phase files source sink with
  | done result =>
    simp only [run, Except.ok.injEq] at h ⊢
    exact ⟨[], by rw [converse, h], by rw [List.append_nil]⟩
  | failed cause => simp [run] at h
  | send bytes next ih =>
    simp only [run] at h ⊢
    split at h
    · next written hwrite =>
      obtain ⟨sent, hnext, htaken⟩ := ih h
      have hwritten : written.taken = sink.taken ++ bytes := by rw [Sink.write_eq_ok hwrite]
      rw [hwritten, List.append_assoc] at htaken
      exact ⟨bytes ++ sent, by rw [converse, hnext]; rfl, htaken⟩
    · simp at h
  | flush next ih =>
    simp only [run] at h ⊢
    split at h
    · exact ih h
    · simp at h
  | receive awaited n next ih =>
    simp only [run] at h ⊢
    split at h
    · next hfill =>
      obtain ⟨sent, hnext, htaken⟩ := ih _ h
      exact ⟨sent, by rw [converse, Source.split?_bytes hfill]; exact hnext, htaken⟩
    · simp at h
    · simp at h
    · simp at h
  | enter phase next ih => exact ih h
  | keep files next ih => exact ih h

/-- A run succeeds if its source delivers what the dialogue is to hear and its sink never
fails. -/
theorem run_of_converse {patience : Duration} {d : Dialogue α} {phase : Phase} {files : KeyFiles}
    {source tail : Source} {sink : Sink} {heard sent rest : Bytes} {a : α}
    (h : d.converse heard = some (a, sent, rest)) (hsource : source.Delivers heard tail)
    (hroom : sink.room = none) (hflush : sink.flushFault = none) :
    (d.run patience phase files source sink).result = .ok a := by
  induction d generalizing phase files source sink heard sent with
  | done result =>
    simp only [converse, Option.some.injEq, Prod.mk.injEq] at h
    rw [run, h.1]
  | failed cause => simp [converse] at h
  | send bytes next ih =>
    obtain ⟨⟨_, _, _⟩, hnext, heq⟩ := Option.map_eq_some_iff.mp h
    simp only [Prod.mk.injEq] at heq
    obtain ⟨rfl, -, rfl⟩ := heq
    have hwrite : sink.write bytes = ({ sink with taken := sink.taken ++ bytes }, none) := by
      simp only [Sink.write, hroom]
    simp only [run, hwrite]
    exact ih hnext hsource hroom hflush
  | flush next ih =>
    simp only [run, hflush]
    exact ih h hsource hroom hflush
  | receive awaited n next ih =>
    simp only [converse] at h
    split at h
    · next bytes behind hsplit =>
      obtain ⟨rfl, hlength⟩ := Bytes.split?_eq_some hsplit
      obtain ⟨others, hothers, hfill⟩ := hsource.fill hlength
      simp only [run, hfill]
      exact ih bytes h hothers hroom hflush
    · simp at h
  | enter phase next ih => exact ih h hsource hroom hflush
  | keep files next ih => exact ih h hsource hroom hflush

theorem phase_of_run_error {patience : Duration} {d : Dialogue α} {phase : Phase}
    {files : KeyFiles} {source : Source} {sink : Sink} {cause : HandshakeError}
    (h : (d.run patience phase files source sink).result = .error cause) :
    (d.run patience phase files source sink).phase = .failed := by
  induction d generalizing phase files source sink with
  | done result => simp [run] at h
  | failed cause => rfl
  | send bytes next ih =>
    simp only [run] at h ⊢
    split at h
    · exact ih h
    · rfl
  | flush next ih =>
    simp only [run] at h ⊢
    split at h
    · exact ih h
    · rfl
  | receive awaited n next ih =>
    simp only [run] at h ⊢
    split at h
    · exact ih _ h
    · rfl
    · rfl
    · rfl
  | enter phase next ih => exact ih h
  | keep files next ih => exact ih h

def EndsReady : Phase → Dialogue α → Prop
  | phase, .done _ => phase = .ready
  | _, .failed _ => True
  | phase, .send _ next => next.EndsReady phase
  | phase, .flush next => next.EndsReady phase
  | phase, .receive _ _ next => ∀ bytes, (next bytes).EndsReady phase
  | _, .enter phase next => next.EndsReady phase
  | phase, .keep _ next => next.EndsReady phase

theorem endsReady_bind {phase : Phase} {d : Dialogue α} {f : α → Dialogue β}
    (h : ∀ a phase, (f a).EndsReady phase) : (d >>= f).EndsReady phase := by
  change (d.bind f).EndsReady phase
  induction d generalizing phase with
  | done result => exact h result phase
  | failed cause => trivial
  | send bytes next ih => exact ih
  | flush next ih => exact ih
  | receive awaited n next ih => exact fun bytes => ih bytes
  | enter phase next ih => exact ih
  | keep files next ih => exact ih

theorem endsReady_expire {elapsed : Duration} {n : Nat} {phase : Phase} {d : Dialogue α}
    (h : d.EndsReady phase) : (d.expire elapsed n).EndsReady phase := by
  induction d generalizing n phase with
  | done result => simpa only [expire] using h
  | failed cause => simp only [expire, EndsReady]
  | send bytes next ih =>
    cases n with
    | zero => trivial
    | succ n => exact ih h
  | flush next ih =>
    cases n with
    | zero => trivial
    | succ n => exact ih h
  | receive awaited length next ih =>
    cases n with
    | zero => trivial
    | succ n => exact fun bytes => ih bytes (h bytes)
  | enter phase next ih =>
    simp only [expire, EndsReady] at h ⊢
    exact ih h
  | keep files next ih =>
    simp only [expire, EndsReady] at h ⊢
    exact ih h

theorem phase_of_run_ok {patience : Duration} {d : Dialogue α} {phase : Phase}
    {files : KeyFiles} {source : Source} {sink : Sink} {a : α} (hready : d.EndsReady phase)
    (h : (d.run patience phase files source sink).result = .ok a) :
    (d.run patience phase files source sink).phase = .ready := by
  induction d generalizing phase files source sink with
  | done result => exact hready
  | failed cause => simp [run] at h
  | send bytes next ih =>
    simp only [run] at h ⊢
    split at h
    · exact ih hready h
    · simp at h
  | flush next ih =>
    simp only [run] at h ⊢
    split at h
    · exact ih hready h
    · simp at h
  | receive awaited n next ih =>
    simp only [run] at h ⊢
    split at h
    · exact ih _ (hready _) h
    · simp at h
    · simp at h
    · simp at h
  | enter phase next ih => exact ih hready h
  | keep files next ih => exact ih hready h

end Dialogue

end CipherLink
