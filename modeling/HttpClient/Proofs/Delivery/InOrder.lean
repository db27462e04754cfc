import HttpClient.Proofs.Delivery.Handover
set_option autoImplicit false

/-!
A body without codings arrives as it was sent: piece by piece, in order and without a loss, whatever
the order of the steps of the two sides. A failure overtakes what is queued; completion does not.
-/

namespace HttpClient

def Pull.piece? : Pull → Option Bytes
  | .data piece => some piece
  | _ => none

def Call.held : Call → List Bytes
  | .holds piece => [piece]
  | _ => []

/-- The looks that are left at most, once the sender can be seen to be gone. -/
def Call.left : Call → Nat
  | .asks => 5
  | .takes => 4
  | .closes => 3
  | .judges => 2
  | .holds _ | .ends => 1

theorem Call.left_le (call : Call) : call.left ≤ 5 := by
  cases call <;> simp [left]

namespace Look

variable {r : Reader} {c : Channel}

theorem decode_plain (hr : r.decoders = []) {piece : Bytes} (hp : piece ≠ []) :
    decode r c piece = (.returns (.data piece), r, c) := by
  obtain ⟨source, ds, listening, done⟩ := r
  cases hr
  cases piece with
  | nil => exact absurd rfl hp
  | cons b piece => rfl

theorem finish_plain (hr : r.decoders = []) :
    finish r c = (.goesOn .ends, { r with done := true }, c) := by
  obtain ⟨source, ds, listening, done⟩ := r
  cases hr
  rfl

end Look

namespace Handover

def received (s : Handover) : List Bytes := s.told.filterMap Pull.piece?

def held (s : Handover) : List Bytes := (s.call.map Call.held).getD []

/-- The results are data and then nothing but ends, and an end means that all was received. -/
def Regular (s : Handover) : Prop :=
  ∃ n, s.told = s.received.map .data ++ List.replicate n .ended ∧
    (n ≠ 0 → s.reader.listening = false ∧ s.received = s.sent)

structure Ordered (capacity : Nat) (s : Handover) : Prop where
  sound : s.Sound
  plain : s.reader.decoders = []
  capacity : s.channel.capacity = max capacity 1
  bounded : s.channel.queue.length ≤ s.channel.capacity
  filled : ∀ piece ∈ s.held ++ s.channel.queue, piece ≠ []
  given : s.received <+: s.sent
  kept : s.channel.receiving = true → s.channel.failure? = none →
    s.received ++ s.held ++ s.channel.queue = s.sent
  regular : s.channel.sending = true ∨ s.channel.outcome = .complete → s.Regular

section Steps

variable {capacity : Nat} {s : Handover}

theorem Ordered.told_of_listening (hs : s.Ordered capacity)
    (hl : s.reader.listening = true)
    (h : s.channel.sending = true ∨ s.channel.outcome = .complete) :
    s.told = s.received.map .data := by
  obtain ⟨n, htold, hn⟩ := hs.regular h
  cases n with
  | zero => simpa using htold
  | succ n => simp [hl] at hn

theorem Ordered.listening (hs : s.Ordered capacity) (hsending : s.channel.sending = true) :
    s.reader.listening = true := by
  cases hl : s.reader.listening with
  | true => rfl
  | false => simp [(hs.sound.drained hl).1] at hsending

theorem Ordered.send (hs : s.Ordered capacity) {data : Bytes} {c : Channel}
    (hsending : s.channel.sending = true) (hc : s.channel.send data = .sent c) :
    Ordered capacity { s with channel := c, sent := s.sent ++ [data].filter (!·.isEmpty) } := by
  have hbounded := Channel.length_of_send hc hs.bounded
  have htold := hs.told_of_listening (hs.listening hsending) (.inl hsending)
  rcases Channel.sent_cases hc with ⟨hempty, rfl⟩ | ⟨hdata, -, rfl⟩
  · simpa [hempty] using hs
  · have hsent : [data].filter (!·.isEmpty) = [data] := by simp [hdata]
    rw [hsent]
    refine ⟨hs.sound.send hsending ⟨_, rfl⟩, hs.plain, hs.capacity, hbounded, ?_, ?_, ?_, ?_⟩
    · intro piece hp
      rw [← List.append_assoc] at hp
      rcases List.mem_append.mp hp with hp | hp
      · exact hs.filled piece hp
      · rw [List.mem_singleton.mp hp]
        simpa using hdata
    · exact hs.given.trans (List.prefix_append ..)
    · intro hr hf
      exact (List.append_assoc ..).symm.trans (congrArg (· ++ [data]) (hs.kept hr hf))
    · exact fun _ => ⟨0, htold.trans (List.append_nil _).symm, fun h => absurd rfl h⟩

theorem Ordered.silent (hs : s.Ordered capacity) {r : Reader} {call : Option Call}
    (hsound : Sound { s with reader := r, call := call }) (hplain : r.decoders = [])
    (hl : s.reader.listening = false → r.listening = false)
    (hheld : (call.map Call.held).getD [] = s.held) :
    Ordered capacity { s with reader := r, call := call } := by
  have hheld : held { s with reader := r, call := call } = s.held := hheld
  refine ⟨hsound, hplain, hs.capacity, hs.bounded, ?_, hs.given, ?_, fun h => ?_⟩
  · rw [hheld]
    exact hs.filled
  · rw [hheld]
    exact hs.kept
  · obtain ⟨n, htold, hn⟩ := hs.regular h
    exact ⟨n, htold, fun h => ⟨hl (hn h).1, (hn h).2⟩⟩

theorem received_returned (s : Handover) (r : Reader) (c : Channel) (pull : Pull) :
    (s.looked (.returns pull, r, c)).received = s.received ++ pull.piece?.toList := by
  cases pull <;> simp [looked, received, Pull.piece?]

theorem Ordered.failed (hs : s.Ordered capacity) {failure : Failure}
    (hsound : (s.looked (.returns (.fail failure), s.reader, s.channel)).Sound)
    (hend : ¬(s.channel.sending = true ∨ s.channel.outcome = .complete))
    (hheld : s.channel.failure? = none → s.held = []) :
    (s.looked (.returns (.fail failure), s.reader, s.channel)).Ordered capacity := by
  have hreceived : (s.looked (.returns (.fail failure), s.reader, s.channel)).received =
      s.received := (s.received_returned ..).trans (List.append_nil _)
  refine ⟨hsound, hs.plain, hs.capacity, hs.bounded, fun piece hp => ?_, ?_, fun hr hf => ?_,
    fun h => absurd h hend⟩
  · exact hs.filled piece (List.mem_append_right _ hp)
  · rw [hreceived]
    exact hs.given
  · rw [hreceived]
    have := hs.kept hr hf
    rwa [hheld hf] at this

theorem Ordered.ended (hs : s.Ordered capacity) (hr : s.channel.receiving = true)
    (hsound : (s.looked (.returns .ended, s.reader, s.channel)).Sound)
    (hl : s.reader.listening = false) (hf : s.channel.failure? = none) (hheld : s.held = []) :
    (s.looked (.returns .ended, s.reader, s.channel)).Ordered capacity := by
  have hreceived : (s.looked (.returns .ended, s.reader, s.channel)).received = s.received :=
    (s.received_returned ..).trans (List.append_nil _)
  have hkept := hs.kept hr hf
  rw [hheld, (hs.sound.drained hl).2, List.append_nil, List.append_nil] at hkept
  refine ⟨hsound, hs.plain, hs.capacity, hs.bounded, fun piece hp => ?_, ?_, fun _ _ => ?_,
    fun h => ?_⟩
  · exact hs.filled piece (List.mem_append_right _ hp)
  · rw [hreceived]
    exact hs.given
  · have := hs.kept hr hf
    rw [hreceived]
    rwa [hheld] at this
  · obtain ⟨n, htold, -⟩ := hs.regular h
    refine ⟨n + 1, ?_, fun _ => ⟨hl, hreceived.trans hkept⟩⟩
    rw [hreceived, List.replicate_succ', ← List.append_assoc, ← htold]
    rfl

theorem Ordered.returned (hs : s.Ordered capacity) {piece : Bytes}
    (hsound : (s.looked (.returns (.data piece), s.reader, s.channel)).Sound)
    (hl : s.reader.listening = true) (hheld : s.held = [piece])
    (hkept : s.received ++ s.held ++ s.channel.queue = s.sent) :
    (s.looked (.returns (.data piece), s.reader, s.channel)).Ordered capacity := by
  have hreceived : (s.looked (.returns (.data piece), s.reader, s.channel)).received =
      s.received ++ [piece] := s.received_returned ..
  rw [hheld] at hkept
  refine ⟨hsound, hs.plain, hs.capacity, hs.bounded, fun piece hp => ?_, ?_, fun _ _ => ?_,
    fun h => ?_⟩
  · exact hs.filled piece (List.mem_append_right _ hp)
  · rw [hreceived]
    exact ⟨s.channel.queue, hkept⟩
  · rw [hreceived]
    exact (congrArg (· ++ s.channel.queue) (List.append_nil _)).trans hkept
  · refine ⟨0, ?_, fun h => absurd rfl h⟩
    rw [hreceived, List.map_append, ← hs.told_of_listening hl h]
    exact (List.append_nil _).symm

theorem Ordered.look (hs : s.Ordered capacity) {call : Call} {next : Look × Reader × Channel}
    (hcall : s.call = some call) (course : Look.Course s.shut s.reader s.channel call next) :
    (s.looked next).Ordered capacity := by
  have hsound := hs.sound.look hcall course
  have hr := hs.sound.receiving hcall
  have hstands := hs.sound.stands call hcall
  have hheld : s.held = call.held := by simp [held, hcall]
  cases course with
  | fails recorded =>
    refine hs.failed hsound ?_ (fun h => by simp [recorded] at h)
    rintro (h | h)
    · simp [Channel.failure?, hs.sound.running h] at recorded
    · simp [Channel.failure?, h] at recorded
  | past intact done => exact hs.ended hr hsound (hs.sound.past done) intact hheld
  | ends intact => exact hs.ended hr hsound hstands.1 intact hheld
  | lost incomplete =>
    refine hs.failed hsound ?_ (fun _ => hheld)
    rintro (h | h)
    · simp [(hs.sound.drained hstands.1).1] at h
    · exact incomplete h
  | takes queue =>
    rename_i piece rest
    have hkept (hf : s.channel.failure? = none) : s.received ++ [piece] ++ rest = s.sent := by
      simpa [hheld, queue, Call.held] using hs.kept hr hf
    refine ⟨hsound, hs.plain, hs.capacity, ?_, ?_, hs.given, fun _ hf => ?_, fun h => ?_⟩
    · have := hs.bounded
      rw [queue] at this
      exact Nat.le_of_succ_le this
    · have := hs.filled
      rwa [hheld, queue] at this
    · exact hkept hf
    · exact hs.regular h
  | decodes intact =>
    rename_i piece
    have hpiece : piece ≠ [] := hs.filled piece (by simp [hheld, Call.held])
    rw [Look.decode_plain hs.plain hpiece] at hsound ⊢
    exact hs.returned hsound hstands hheld (hs.kept hr intact)
  | finishes intact ready =>
    have hnone : s.held = [] := by
      rcases ready with ⟨rfl, -⟩ | rfl <;> exact hheld
    rw [Look.finish_plain hs.plain] at hsound ⊢
    exact hs.silent hsound hs.plain id hnone.symm
  | listens | waits | judges => exact hs.silent hsound hs.plain id hheld.symm
  | closes => exact hs.silent hsound hs.plain (fun _ => rfl) hheld.symm

theorem Ordered.apply (hs : s.Ordered capacity) (act : Act) :
    (s.apply act).Ordered capacity := by
  have hsound := hs.sound.apply act
  cases act with
  | send data =>
    simp only [Handover.apply]
    split
    · next hsending =>
      split
      · next c hc => exact hs.send hsending hc
      · exact hs
    · exact hs
  | resolve outcome =>
    simp only [Handover.apply] at hsound ⊢
    split
    · next hsending =>
      have htold := hs.told_of_listening (hs.listening hsending) (.inl hsending)
      rw [if_pos hsending] at hsound
      rw [Channel.resolve_of_pending (hs.sound.running hsending)] at hsound ⊢
      have hf : s.channel.failure? = none := by
        simp only [Channel.failure?, hs.sound.running hsending]
      exact ⟨hsound, hs.plain, hs.capacity, hs.bounded, hs.filled, hs.given,
        fun hr _ => hs.kept hr hf,
        fun _ => ⟨0, htold.trans (List.append_nil _).symm, fun h => absurd rfl h⟩⟩
    · exact hs
  | shut =>
    simp only [Handover.apply] at hsound ⊢
    split
    · exact hs
    · next h =>
      rw [if_neg h] at hsound
      exact { hs with sound := hsound }
  | ask =>
    simp only [Handover.apply] at hsound ⊢
    split
    · next hfree =>
      rw [if_pos hfree] at hsound
      simp only [Bool.and_eq_true, Option.isNone_iff_eq_none] at hfree
      exact hs.silent hsound hs.plain id (by simp [held, hfree.2, Call.held])
    · exact hs
  | look =>
    simp only [Handover.apply]
    split
    · exact hs
    · next hcall => exact hs.look hcall (Look.course ..)
  | stop =>
    simp only [Handover.apply] at hsound ⊢
    split
    · next hcall =>
      rw [if_pos hcall] at hsound
      exact hs.silent hsound hs.plain id (by simp [held, hcall, Call.held])
    · exact hs
  | leave =>
    exact ⟨hsound, hs.plain, hs.capacity, Nat.zero_le _, fun _ h => (by cases h), hs.given,
      fun h => (by cases h), hs.regular⟩

theorem Ordered.run (hs : s.Ordered capacity) (acts : List Act) :
    (s.run acts).Ordered capacity := by
  induction acts generalizing s with
  | nil => exact hs
  | cons act acts ih => exact ih (hs.apply act)

/-- The results of a completed body are the data that was sent, and then only ends. -/
theorem Ordered.whole (hs : s.Ordered capacity) (h : s.channel.outcome = .complete) :
    ∃ n, s.told <+: s.sent.map .data ++ List.replicate n .ended := by
  obtain ⟨n, htold, hn⟩ := hs.regular (.inr h)
  refine ⟨n, ?_⟩
  cases n with
  | zero =>
    rw [htold, List.replicate_zero, List.append_nil, List.append_nil]
    exact hs.given.map _
  | succ n =>
    have hall := (hn n.succ_ne_zero).2
    exact ⟨[], by rw [List.append_nil, htold, hall]⟩

theorem Ordered.nearer (hs : s.Ordered capacity) (hshut : s.shut = true) {call : Call}
    {next : Look × Reader × Channel} (hcall : s.call = some call)
    (course : Look.Course s.shut s.reader s.channel call next) :
    (∃ pull, next.1 = .returns pull) ∨
      ∃ call', next.1 = .goesOn call' ∧ call'.left < call.left := by
  have hheld : s.held = call.held := by simp [held, hcall]
  cases course with
  | fails | past | lost | ends => exact .inl ⟨_, rfl⟩
  | waits running => simp [hshut] at running
  | finishes intact ready =>
    rw [Look.finish_plain hs.plain]
    refine .inr ⟨.ends, rfl, ?_⟩
    rcases ready with ⟨rfl, -⟩ | rfl <;> decide
  | decodes intact =>
    rename_i piece
    have hpiece : piece ≠ [] := hs.filled piece (by simp [hheld, Call.held])
    rw [Look.decode_plain hs.plain hpiece]
    exact .inl ⟨_, rfl⟩
  | listens | takes | closes | judges =>
    exact .inr ⟨_, rfl, by simp [Call.left]⟩

theorem waits_apply {call : Call} (hshut : s.shut = true) (hcall : s.call = some call) {act : Act}
    (hlook : act ≠ .look) (hstop : act ≠ .stop) (hleave : act ≠ .leave) :
    (s.apply act).shut = true ∧ (s.apply act).call = some call := by
  cases act with
  | look => exact absurd rfl hlook
  | stop => exact absurd rfl hstop
  | leave => exact absurd rfl hleave
  | send data =>
    simp only [Handover.apply]
    split
    · split <;> exact ⟨hshut, hcall⟩
    · exact ⟨hshut, hcall⟩
  | ask => simp [Handover.apply, hshut, hcall]
  | _ =>
    simp only [Handover.apply]
    split <;> simp [hshut, hcall]

theorem Ordered.returns (hs : s.Ordered capacity) (hshut : s.shut = true) {call : Call}
    (hcall : s.call = some call) {more : List Act} (hstop : .stop ∉ more) (hleave : .leave ∉ more)
    (hlooks : call.left ≤ more.count .look) : s.later more ≠ [] := by
  induction more generalizing s call with
  | nil => cases call <;> simp [Call.left] at hlooks
  | cons act more ih =>
    rw [List.mem_cons, not_or] at hstop hleave
    rw [later_cons]
    by_cases hact : act = .look
    · subst hact
      rw [List.count_cons_self] at hlooks
      simp only [tells, hcall]
      rcases hs.nearer hshut hcall (Look.course s.shut s.reader s.channel call) with
        ⟨pull, hnext⟩ | ⟨call', hnext, hleft⟩
      · simp [hnext, Look.pulls]
      · have hlooked := apply_look hcall
        rcases hstep : Look.step s.shut (.goesOn call, s.reader, s.channel) with ⟨_, r, c⟩
        rw [hstep] at hlooked hnext
        cases hnext
        have := ih (hs.apply .look) (by rw [hlooked]; exact hshut) (by rw [hlooked]; rfl)
          hstop.2 hleave.2 (by omega)
        simp [this]
    · rw [List.count_cons_of_ne hact] at hlooks
      obtain ⟨hshut', hcall'⟩ := waits_apply hshut hcall hact (Ne.symm hstop.1) (Ne.symm hleave.1)
      have := ih (hs.apply act) hshut' hcall' hstop.2 hleave.2 hlooks
      simp [this]

end Steps

example :
    let call : List Act := .ask :: List.replicate 6 .look
    let acts : List Act :=
      [.send [97], .send [98]] ++ call ++ [.send [98], .resolve .complete, .shut]
    ((start 1 0 []).run (acts ++ call ++ call ++ call)).told =
      [.data [97], .data [98], .ended, .ended] := by
  decide

end Handover
end HttpClient
