import HttpClient.Proofs.Exchange.Sound
import HttpClient.Proofs.Pool.InUse
set_option autoImplicit false

/-!
What a step of an exchange, or its cancellation, means to the two who rely on it: the caller, who
waits for an answer and then for a body, and the pool, which has lent it a connection. `Course`
lists the cases, each with the failure it came from and with what was done to a connection.
-/

namespace HttpClient

structure Hub.Calm (hub hub' : Hub) : Prop where
  inUse : hub'.pool.inUse = hub.pool.inUse
  idle : ∀ c ∈ hub'.pool.idle, c ∈ hub.pool.idle

theorem Hub.Calm.refl (hub : Hub) : hub.Calm hub := ⟨rfl, fun _ h => h⟩

theorem Hub.calm_setLink (hub : Hub) (n : Nat) (l : Link) : hub.Calm (hub.setLink n l) :=
  ⟨rfl, fun _ h => h⟩

theorem Acquisition.calm_of_fail {e : Endpoint} {a : Acquisition} {error : AcquireError}
    {hub hub' : Hub} (h : a.step e hub = .fail error hub') : hub.Calm hub' where
  inUse := inUse_of_step (by rw [h]; rfl) (by simp [h])
  idle := (spares_step (by rw [h]; rfl)).idle

theorem Parser.awaitingHeaders_iff (p : Parser) :
    p.state = .awaitingHeaders ↔ p.phase.part = .head := by
  unfold state
  cases p.phase with
  | complete trailers => cases trailers <;> simp [Phase.state, Phase.part]
  | _ => simp [Phase.state, Phase.part]

theorem Parser.part_finish (p : Parser) : p.finish.phase.part = p.phase.part := by
  unfold finish
  split
  · next h =>
    rw [h.1]
    rfl
  · rfl

theorem Channel.receiving_of_refused {data : Bytes} {c : Channel} (h : c.send data = .refused) :
    c.receiving = false := by
  unfold send at h
  split at h
  · cases h
  · split at h
    · next hr => simpa using hr
    · split at h <;> cases h

theorem Channel.queue_of_sent {data : Bytes} {c d : Channel} (h : c.send data = .sent d) :
    ∃ queue, d = { c with queue := queue } := by
  rcases Channel.sent_cases h with ⟨-, rfl⟩ | ⟨-, -, rfl⟩
  · exact ⟨d.queue, rfl⟩
  · exact ⟨_, rfl⟩

/-- What an exchange does with a connection of the pool, known by its number. -/
inductive Deed where
  | acquired (id : Nat)
  | released (id : Nat)
  | discarded (id : Nat)
  deriving DecidableEq

inductive Push where
  | go (quota : Nat)
  | cancel (cause : Cause)

namespace Exchange

def push (x : Exchange) (m : Push) (hub : Hub) : Option (Exchange × Hub) :=
  match m with
  | .go quota => x.step quota hub
  | .cancel cause => if x.isFinished then none else some (x.cancel cause hub)

def number? (x : Exchange) : Option Nat := x.connection.map (·.id)

def headSeen (x : Exchange) : Bool := x.receipt?.any fun r => r.parser.phase.part ≠ .head

/-- The response ends in this push, and its connection can be used again. -/
def givesBack (x : Exchange) (m : Push) : Bool :=
  match m, x.stage with
  | .go _, .parsing _ r data =>
    match r.parser.feed data with
    | (.ok (some (.complete _)), q) => x.reusable { r with parser := q }
    | _ => false
  | _, _ => false

/-- What is done to connections in a push from `x` to `y`. -/
def deeds (x : Exchange) (m : Push) (y : Exchange) : List Deed :=
  match x.connection, y.connection with
  | none, some h => [.acquired h.id]
  | some h, none => [if x.givesBack m then .released h.id else .discarded h.id]
  | _, _ => []

/-- The next step of the exchange uses its connection. -/
inductive UsesLink (x : Exchange) : Prop where
  | securing {plan : Plan} (stage : x.stage = .securing plan)
  | writing {plan : Plan} {p : Payload} (stage : x.stage = .writing plan p) (more : p.writes ≠ [])
  | reading {plan : Plan} {r : Receipt} (stage : x.stage = .reading plan r)

/-- Everything that can go wrong with an exchange, and the failure that it is. -/
inductive Faults (x : Exchange) (hub : Hub) : Push → Failure → Prop where
  | cancelled (cause : Cause) (running : x.stage ≠ .finished) :
      Faults x hub (.cancel cause) (.ofCause cause x.target)
  | unplanned {quota : Nat} {failure : Failure} (stage : x.stage = .dispatched)
      (plan : x.plan = .error failure) : Faults x hub (.go quota) failure
  | unacquired {quota : Nat} {plan : Plan} {a : Acquisition} {error : AcquireError} {hub₁ : Hub}
      (stage : x.stage = .acquiring plan a) (step : a.step plan.endpoint hub = .fail error hub₁) :
      Faults x hub (.go quota) (.ofAcquire error x.target)
  | unsecured {quota : Nat} {plan : Plan} {h : Handle} {n : Nat} {l : Link}
      (stage : x.stage = .securing plan) (found : x.linkOf hub = some (h, n, l))
      (new : h.session = none) (refused : l.handshake = none) :
      Faults x hub (.go quota) (.handshake "handshake failed")
  | unnamed {quota : Nat} {plan : Plan} {h : Handle} {n : Nat} {l : Link}
      {protocol : Option String} (stage : x.stage = .securing plan)
      (found : x.linkOf hub = some (h, n, l)) (new : h.session = none)
      (agreed : l.handshake = some protocol) (nameless : plan.endpoint.namesServer = false) :
      Faults x hub (.go quota) (.handshake "invalid server name")
  | unproduced {quota : Nat} {plan : Plan} {p : Payload} {failure : Failure}
      (stage : x.stage = .writing plan p) (writes : p.writes = [])
      (broken : p.failure = some failure) : Faults x hub (.go quota) failure
  | unwritten {quota : Nat} {plan : Plan} {p : Payload} {data : Bytes} {h : Handle} {n : Nat}
      {l : Link} {failure : IoFailure} (stage : x.stage = .writing plan p)
      (next : p.writes.head? = some data) (found : x.linkOf hub = some (h, n, l))
      (write : l.write data = .error failure) : Faults x hub (.go quota) (.io failure)
  | unread {quota : Nat} {plan : Plan} {r : Receipt} {h : Handle} {n : Nat} {l m : Link}
      {failure : IoFailure} (stage : x.stage = .reading plan r)
      (found : x.linkOf hub = some (h, n, l)) (read : l.read quota = (some (.error failure), m)) :
      Faults x hub (.go quota) (.io failure)
  | unparsed {quota : Nat} {plan : Plan} {r : Receipt} {data : Bytes} {q : Parser}
      {error : ParseError} (stage : x.stage = .parsing plan r data)
      (feed : r.parser.feed data = (.error error, q)) : Faults x hub (.go quota) (.parse error)
  | incomplete {quota : Nat} {plan : Plan} {r : Receipt} {data : Bytes} {q : Parser}
      (stage : x.stage = .parsing plan r data) (feed : r.parser.feed data = (.ok none, q))
      (ended : r.ended = true) : Faults x hub (.go quota) (broken { r with parser := q })
  | unanswered {quota : Nat} {plan : Plan} {r : Receipt} {data : Bytes} {q : Parser}
      {head : ResponseHead} {bodiless : Bool} {error : HeadError}
      (stage : x.stage = .parsing plan r data)
      (feed : r.parser.feed data = (.ok (some (.head head bodiless)), q))
      (answer : Answer.ofHead head bodiless x.request x.session x.number = .error error) :
      Faults x hub (.go quota) (.ofHead error)
  | tooLarge {quota : Nat} {plan : Plan} {r : Receipt} {data piece : Bytes} {q : Parser}
      (stage : x.stage = .parsing plan r data)
      (feed : r.parser.feed data = (.ok (some (.chunk piece)), q)) (over_ : q.overLimit = true) :
      Faults x hub (.go quota) (.tooLarge q.limits.bodyBytes)
  | unconnected {quota : Nat} (uses : x.UsesLink) (lost : x.linkOf hub = none) :
      Faults x hub (.go quota) unconnected

/-- The exchange has its connection no longer, if it had one. It gave it back, or closed it. -/
inductive LetsGo (x : Exchange) (back : Bool) (hub : Hub) : Hub → List Deed → Prop where
  | nothing (connection : x.connection = none) : LetsGo x back hub hub []
  | released {h : Handle} (connection : x.connection = some h) (fit : back = true) :
      LetsGo x back hub (hub.release h).2 [.released h.id]
  | discarded {h : Handle} (connection : x.connection = some h) (unfit : back = false) :
      LetsGo x back hub (hub.discard h).2 [.discarded h.id]

/-- The exchange is not over. What it offers is part of a body, so the head came before. -/
structure Running (x : Exchange) : Prop where
  unfinished : x.stage ≠ .finished
  offers : ∀ plan r data, x.stage = .offering plan r data → x.headSeen = true

structure Quiet (x y : Exchange) : Prop where
  mailbox : y.mailbox = x.mailbox
  outcome : y.channel.outcome = x.channel.outcome
  receiving : y.channel.receiving = x.channel.receiving

/-- The exchange ends with a failure. Who waits for the answer is told, and so is who reads the
body; the connection is closed. -/
structure Fails (x : Exchange) (failure : Failure) (hub : Hub) (y : Exchange) (hub' : Hub)
    (deeds : List Deed) : Prop where
  letsGo : ∃ hub₁, hub.Calm hub₁ ∧ x.LetsGo false hub₁ hub' deeds
  finished : y.stage = .finished
  connection : y.connection = none
  waiting : x.mailbox = .empty → y.mailbox = .filled (.error failure)
  answered : x.mailbox ≠ .empty → y.mailbox = x.mailbox
  channel : y.channel = x.channel.fail failure

inductive Course (x : Exchange) (m : Push) (hub : Hub) (y : Exchange) (hub' : Hub) :
    List Deed → Prop where
  | continues (running : y.Running) (quiet : x.Quiet y) (headSeen : y.headSeen = x.headSeen)
      (number : y.number? = x.number?) (inUse : hub'.pool.inUse = hub.pool.inUse) :
      Course x m hub y hub' []
  | acquires {plan : Plan} {a : Acquisition} {h : Handle} (stage : x.stage = .acquiring plan a)
      (step : a.step plan.endpoint hub = .done h hub') (running : y.Running)
      (connection : y.connection = some h) (quiet : x.Quiet y) (headSeen : y.headSeen = false) :
      Course x m hub y hub' [.acquired h.id]
  | answers {plan : Plan} {r : Receipt} {data : Bytes} {head : ResponseHead} {bodiless : Bool}
      {q : Parser} {answer : Answer} (stage : x.stage = .parsing plan r data)
      (feed : r.parser.feed data = (.ok (some (.head head bodiless)), q))
      (made : Answer.ofHead head bodiless x.request x.session x.number = .ok answer)
      (waiting : x.mailbox = .empty) (mailbox : y.mailbox = .filled (.ok answer))
      (running : y.Running) (channel : y.channel = x.channel)
      (headSeen : y.headSeen = true) (number : y.number? = x.number?) (same : hub' = hub) :
      Course x m hub y hub' []
  | retries {plan : Plan} {r : Receipt} {deeds : List Deed} (stage : x.stage = .reading plan r)
      (first : x.retried = false) (nothing : r.total = 0) (headSeen : x.headSeen = false)
      {hub₁ : Hub} (touched : x.Touched hub hub₁) (letsGo : x.LetsGo false hub₁ hub' deeds)
      (next : y.stage = .acquiring plan .start) (retried : y.retried = true)
      (connection : y.connection = none) (quiet : x.Quiet y) : Course x m hub y hub' deeds
  | completes {plan : Plan} {r : Receipt} {data : Bytes} {q : Parser} {trailers : Fields}
      {deeds : List Deed} (stage : x.stage = .parsing plan r data)
      (feed : r.parser.feed data = (.ok (some (.complete trailers)), q))
      (letsGo : x.LetsGo (x.reusable { r with parser := q }) hub hub' deeds)
      (finished : y.stage = .finished) (connection : y.connection = none)
      (mailbox : y.mailbox = x.mailbox) (channel : y.channel = x.channel.complete) :
      Course x m hub y hub' deeds
  | fails {failure : Failure} {deeds : List Deed} (fault : x.Faults hub m failure)
      (ended : x.Fails failure hub y hub' deeds) : Course x m hub y hub' deeds
  | abandons {deeds : List Deed} (gone : x.headSeen = false ∧ x.mailbox ≠ .empty ∨
        x.headSeen = true ∧ x.channel.receiving = false)
      (letsGo : x.LetsGo false hub hub' deeds) (finished : y.stage = .finished)
      (connection : y.connection = none) (quiet : x.Quiet y) : Course x m hub y hub' deeds

/-- To the caller and the pool `y` is the same exchange. -/
structure Alike (x y : Exchange) : Prop where
  mailbox : y.mailbox = x.mailbox
  channel : y.channel = x.channel
  number : y.number? = x.number?

def Runs (x : Exchange) (m : Push) (hub : Hub) (result : Exchange × Hub) : Prop :=
  x.Course m hub result.1 result.2 (x.deeds m result.1)

section Ends

variable {x y : Exchange} {m : Push} {hub hub₁ : Hub}

theorem Alike.refl (x : Exchange) : x.Alike x := ⟨rfl, rfl, rfl⟩

theorem deeds_of_number (h : y.number? = x.number?) (m : Push) : x.deeds m y = [] := by
  unfold number? at h
  unfold deeds
  cases hx : x.connection <;> cases hy : y.connection <;> simp [hx, hy] at h ⊢

theorem deeds_of_nothing (hx : x.connection = none) (hy : y.connection = none) (m : Push) :
    x.deeds m y = [] := by
  simp only [deeds, hx, hy]

theorem deeds_of_end {h : Handle} (hx : x.connection = some h) (hy : y.connection = none)
    (m : Push) : x.deeds m y = [if x.givesBack m then .released h.id else .discarded h.id] := by
  simp only [deeds, hx, hy]

theorem discard_congr {h h' : Handle} (hid : h'.id = h.id) (hub : Hub) :
    (hub.discard h').2 = (hub.discard h).2 := by
  simp only [Hub.discard, Pool.discard, hid]

theorem discardConnection_fst (x : Exchange) (hub : Hub) :
    (x.discardConnection hub).1 = { x with connection := none } := by
  unfold discardConnection
  split
  · next hc => rw [← hc]
  · rfl

theorem connection_discardConnection (x : Exchange) (hub : Hub) :
    (x.discardConnection hub).1.connection = none := by
  rw [discardConnection_fst]

theorem letsGo_discardConnection (hn : y.number? = x.number?) (hg : x.givesBack m = false)
    (hub : Hub) :
    x.LetsGo false hub (y.discardConnection hub).2 (x.deeds m (y.discardConnection hub).1) := by
  have hgone := y.connection_discardConnection hub
  cases hx : x.connection with
  | none =>
    have hy : y.connection = none := by simpa [number?, hx] using hn
    rw [deeds_of_nothing hx hgone]
    simp only [discardConnection, hy]
    exact .nothing hx
  | some h =>
    obtain ⟨h', hy, hid⟩ : ∃ h', y.connection = some h' ∧ h'.id = h.id := by
      simpa [number?, hx] using hn
    rw [deeds_of_end hx hgone, hg]
    simp only [discardConnection, hy, discard_congr hid]
    exact .discarded hx rfl

theorem fails_fail (h : x.Alike y) (calm : hub.Calm hub₁) (hg : x.givesBack m = false)
    (failure : Failure) : x.Fails failure hub (y.fail failure hub₁).1 (y.fail failure hub₁).2
      (x.deeds m (y.fail failure hub₁).1) := by
  have hmade : (y.fail failure hub₁).1.channel = y.channel.fail failure := by
    simp only [fail, discardConnection_fst]
  have hempty (hy : y.mailbox = .empty) :
      (y.fail failure hub₁).1.mailbox = .filled (.error failure) := by
    simp only [fail, discardConnection_fst, hy]
  have hother (hy : y.mailbox ≠ .empty) : (y.fail failure hub₁).1.mailbox = y.mailbox := by
    simp only [fail, discardConnection_fst]
  refine ⟨⟨hub₁, calm, ?_⟩, (quits_fail y failure hub₁).stage,
    (quits_fail y failure hub₁).connection, fun hx => hempty (h.mailbox.trans hx),
    fun hx => (hother (h.mailbox ▸ hx)).trans h.mailbox, hmade.trans (h.channel ▸ rfl)⟩
  unfold fail
  exact letsGo_discardConnection (y := { y with
    stage := .finished, mailbox := _, channel := _ }) h.number hg hub₁

theorem runs_fail {failure : Failure} (h : x.Alike y) (fault : x.Faults hub m failure)
    (calm : hub.Calm hub₁) (hg : x.givesBack m = false) :
    x.Runs m hub (y.fail failure hub₁) :=
  .fails fault (fails_fail h calm hg failure)

theorem runs_abandon (h : x.Alike y) (gone : x.headSeen = false ∧ x.mailbox ≠ .empty ∨
      x.headSeen = true ∧ x.channel.receiving = false) (hg : x.givesBack m = false) :
    x.Runs m hub (y.abandon hub) := by
  have hmailbox : (y.abandon hub).1.mailbox = x.mailbox := by
    simp only [abandon, discardConnection_fst, h.mailbox]
  have hchannel : (y.abandon hub).1.channel = x.channel.abandon := by
    simp only [abandon, discardConnection_fst, h.channel]
  refine .abandons gone ?_ (quits_abandon y hub).stage (quits_abandon y hub).connection
    ⟨hmailbox, ?_, ?_⟩
  · unfold abandon
    exact letsGo_discardConnection (y := { y with stage := .finished, channel := _ })
      h.number hg hub
  · rw [hchannel]
    rfl
  · rw [hchannel]
    rfl

end Ends

section Steps

variable {x y : Exchange} {m : Push} {hub hub' : Hub} {plan : Plan} {quota : Nat}

theorem runs_of_number (h : y.number? = x.number?) (c : x.Course m hub y hub' []) :
    x.Runs m hub (y, hub') := by
  unfold Runs
  rw [deeds_of_number h]
  exact c

theorem runs_on (running : y.Running) (h : x.Alike y) (hs : y.headSeen = x.headSeen)
    (inUse : hub'.pool.inUse = hub.pool.inUse) : x.Runs m hub (y, hub') :=
  runs_of_number h.number
    (.continues running ⟨h.mailbox, by rw [h.channel], by rw [h.channel]⟩ hs h.number inUse)

theorem givesBack_of_stage (hs : ∀ plan r data, x.stage ≠ .parsing plan r data) (m : Push) :
    x.givesBack m = false := by
  unfold givesBack
  split
  · next hx => exact absurd hx (hs _ _ _)
  · rfl

theorem headSeen_of_nothing (h : x.receipt? = none) : x.headSeen = false := by
  simp [headSeen, h]

theorem headSeen_of_receipt {r : Receipt} (h : x.receipt? = some r) :
    x.headSeen = decide (r.parser.phase.part ≠ .head) := by
  simp [headSeen, h]

theorem Running.of_stage (hf : x.stage ≠ .finished)
    (ho : ∀ plan r data, x.stage ≠ .offering plan r data) : x.Running :=
  ⟨hf, fun plan r data h => absurd h (ho plan r data)⟩

theorem runs_before (hx : x.receipt? = none) (hy : y.receipt? = none)
    (unfinished : y.stage ≠ .finished) (h : x.Alike y)
    (inUse : hub'.pool.inUse = hub.pool.inUse) : x.Runs m hub (y, hub') := by
  refine runs_on (.of_stage unfinished fun plan r data hs => ?_) h ?_ inUse
  · simp [receipt?, hs] at hy
  · rw [headSeen_of_nothing hx, headSeen_of_nothing hy]

theorem runs_begin (hs : x.stage = .dispatched) : x.Runs (.go quota) hub (x.begin hub) := by
  unfold begin
  cases hp : x.plan with
  | error failure =>
    exact runs_fail (.refl x) (.unplanned hs hp) (.refl hub) (givesBack_of_stage (by simp [hs]) _)
  | ok plan =>
    exact runs_before (by simp [receipt?, hs]) rfl (by simp) ⟨rfl, rfl, rfl⟩ rfl

theorem runs_acquire {a : Acquisition} {result : Exchange × Hub} (hx : x.Wired)
    (hs : x.stage = .acquiring plan a) (h : x.acquire plan a hub = some result) :
    x.Runs (.go quota) hub result := by
  have hg := givesBack_of_stage (x := x) (by simp [hs]) (.go quota)
  unfold acquire at h
  cases hm : a.step plan.endpoint hub with
  | wait => simp [hm] at h
  | next b hub' =>
    simp only [hm, Option.some.injEq] at h
    subst h
    exact runs_before (by simp [receipt?, hs]) rfl (by simp) ⟨rfl, rfl, rfl⟩
      (Acquisition.inUse_of_step (by rw [hm]; rfl) (by simp [hm]))
  | fail error hub' =>
    simp only [hm, Option.some.injEq] at h
    subst h
    exact runs_fail (.refl x) (.unacquired hs hm) (Acquisition.calm_of_fail hm) hg
  | done c hub' =>
    simp only [hm, Option.some.injEq] at h
    subst h
    have hnone := hx plan a hs
    by_cases hsec : plan.endpoint.secure = true <;> simp only [hsec] <;>
      simp only [Runs, deeds, hnone, startWriting] <;>
      exact .acquires hs hm (.of_stage (by simp) (by simp)) rfl ⟨rfl, rfl, rfl⟩
        (headSeen_of_nothing rfl)

theorem alike_detached {h : Handle} {n : Nat} {l : Link} (found : x.linkOf hub = some (h, n, l)) :
    x.Alike { x with connection := some h.detached } := by
  refine ⟨rfl, rfl, ?_⟩
  simp only [number?, (linkOf_eq_some found).1]
  rfl

theorem runs_secure (hs : x.stage = .securing plan) :
    x.Runs (.go quota) hub (x.secure plan hub) := by
  have hg := givesBack_of_stage (x := x) (by simp [hs]) (.go quota)
  have hbefore : x.receipt? = none := by simp [receipt?, hs]
  unfold secure
  cases hl : x.linkOf hub with
  | none => exact runs_fail (.refl x) (.unconnected (.securing hs) hl) (.refl hub) hg
  | some found =>
    obtain ⟨h, n, l⟩ := found
    have hc := (linkOf_eq_some hl).1
    have hnumber : x.number? = some h.id := by simp [number?, hc]
    have hdetached := alike_detached hl
    dsimp only
    split
    · exact runs_before hbefore rfl (by simp [startWriting]) ⟨rfl, rfl, rfl⟩ rfl
    · next hnew =>
      have hnew : h.session = none := by simpa using hnew
      split
      · next protocol hagreed =>
        split
        · exact runs_before hbefore rfl (by simp [startWriting]) ⟨rfl, rfl, hnumber.symm⟩ rfl
        · next hname =>
          have hname := Bool.eq_false_iff.2 hname
          exact runs_fail hdetached (.unnamed hs hl hnew hagreed hname) (.refl hub) hg
      · next hnone => exact runs_fail hdetached (.unsecured hs hl hnew hnone) (.refl hub) hg

theorem runs_write {p : Payload} (hs : x.stage = .writing plan p) :
    x.Runs (.go quota) hub (x.write plan p hub) := by
  have hg := givesBack_of_stage (x := x) (by simp [hs]) (.go quota)
  have hbefore : x.receipt? = none := by simp [receipt?, hs]
  unfold write
  split
  · next hw hf => exact runs_fail (.refl x) (.unproduced hs hw hf) (.refl hub) hg
  · refine runs_on (.of_stage (by simp [startReading]) (by simp [startReading])) ⟨rfl, rfl, rfl⟩
      ?_ rfl
    rw [headSeen_of_nothing hbefore]
    rfl
  · next data rest hw =>
    split
    · next hl =>
      exact runs_fail (.refl x) (.unconnected (.writing hs (by simp [hw])) hl) (.refl hub) hg
    · next h n l hl =>
      split
      · next failure hwrite =>
        exact runs_fail (.refl x) (.unwritten hs (by rw [hw]; rfl) hl hwrite) (.refl hub) hg
      · exact runs_before hbefore rfl (by simp) ⟨rfl, rfl, rfl⟩ rfl

theorem runs_retry {r : Receipt} {hub₁ : Hub} (hs : x.stage = .reading plan r)
    (hr : r.parser.state = .awaitingHeaders ∧ r.total = 0 ∧ (!x.retried) = true)
    (touched : x.Touched hub hub₁) : x.Runs (.go quota) hub (x.retry plan hub₁) := by
  have hseen : x.headSeen = false := by
    rw [headSeen_of_receipt (r := r) (by simp [receipt?, hs])]
    simp [r.parser.awaitingHeaders_iff.1 hr.1]
  have hmade : (x.retry plan hub₁).1 =
      { x with stage := .acquiring plan .start, retried := true, connection := none } := by
    rw [retry, discardConnection_fst]
  have hletsGo := letsGo_discardConnection (x := x) (m := .go quota)
    (y := { x with stage := .acquiring plan .start, retried := true }) rfl
    (givesBack_of_stage (by simp [hs]) _) hub₁
  refine .retries hs (by simpa using hr.2.2) hr.2.1 hseen touched hletsGo ?_ ?_ ?_ ?_
  · rw [hmade]
  · rw [hmade]
  · rw [hmade]
  · rw [hmade]
    exact ⟨rfl, rfl, rfl⟩

theorem runs_read {r : Receipt} {result : Exchange × Hub} (hs : x.stage = .reading plan r)
    (h : x.read quota plan r hub = some result) : x.Runs (.go quota) hub result := by
  have hg := givesBack_of_stage (x := x) (by simp [hs]) (.go quota)
  have hseen := headSeen_of_receipt (x := x) (r := r) (by simp [receipt?, hs])
  unfold read at h
  cases hl : x.linkOf hub with
  | none =>
    simp only [hl, Option.some.injEq] at h
    subst h
    exact runs_fail (.refl x) (.unconnected (.reading hs) hl) (.refl hub) hg
  | some found =>
    obtain ⟨c, n, l⟩ := found
    simp only [hl] at h
    rcases hr : l.read quota with ⟨_ | failure | data, l'⟩
    · simp [hr] at h
    · simp only [hr, Option.some.injEq] at h
      subst h
      exact runs_fail (.refl x) (.unread hs hl hr) (hub.calm_setLink ..) hg
    · simp only [hr, Option.some.injEq] at h
      subst h
      unfold receive
      split
      · split
        · next hretry => exact runs_retry hs hretry (.link hl l')
        · refine runs_on (.of_stage (by simp) (by simp)) ⟨rfl, rfl, rfl⟩ ?_
            (hub.calm_setLink ..).inUse
          rw [hseen, ← r.parser.part_finish]
          rfl
      · refine runs_on (.of_stage (by simp) (by simp)) ⟨rfl, rfl, rfl⟩ ?_
          (hub.calm_setLink ..).inUse
        rw [hseen]
        rfl

theorem givesBack_of_feed {r : Receipt} {data : Bytes} {q : Parser}
    {result : Except ParseError (Option Event)} (hs : x.stage = .parsing plan r data)
    (hf : r.parser.feed data = (result, q))
    (hc : ∀ trailers, result ≠ .ok (some (.complete trailers))) (m : Push) :
    x.givesBack m = false := by
  unfold givesBack
  split
  · next hx =>
    rw [hs] at hx
    cases hx
    split
    · next hfeed =>
      rw [hf] at hfeed
      cases hfeed
      exact absurd rfl (hc _)
    · rfl
  · rfl

theorem headSeen_of_event {r : Receipt} {data : Bytes} {e : Event} {q : Parser}
    (hs : x.stage = .parsing plan r data) (hf : r.parser.feed data = (.ok (some e), q))
    (he : ∀ head bodiless, e ≠ .head head bodiless) :
    x.headSeen = true ∧ q.phase.part ≠ .head := by
  rw [headSeen_of_receipt (r := r) (by simp [receipt?, hs])]
  by_cases hp : r.parser.phase.part = .head
  · rcases Parser.head_of_feed hp hf with ⟨hn, -⟩ | ⟨head, bodiless, hn, -⟩
    · cases hn
    · cases hn
      exact absurd rfl (he head bodiless)
  · exact ⟨by simpa using hp, (Parser.body_of_feed hp hf).1⟩

theorem headSeen_of_head {r : Receipt} {data : Bytes} {head : ResponseHead} {bodiless : Bool}
    {q : Parser} (hs : x.stage = .parsing plan r data)
    (hf : r.parser.feed data = (.ok (some (.head head bodiless)), q)) :
    x.headSeen = false ∧ q.phase.part ≠ .head := by
  rw [headSeen_of_receipt (r := r) (by simp [receipt?, hs])]
  by_cases hp : r.parser.phase.part = .head
  · rcases Parser.head_of_feed hp hf with ⟨hn, -⟩ | ⟨head', bodiless', -, hq⟩
    · cases hn
    · exact ⟨by simpa using hp, hq⟩
  · exact absurd rfl ((Parser.body_of_feed hp hf).2 head bodiless)

theorem headSeen_of_wait {r : Receipt} {data : Bytes} {q : Parser}
    (hs : x.stage = .parsing plan r data) (hf : r.parser.feed data = (.ok none, q)) :
    x.headSeen = decide (q.phase.part ≠ .head) := by
  rw [headSeen_of_receipt (r := r) (by simp [receipt?, hs])]
  by_cases hp : r.parser.phase.part = .head
  · rcases Parser.head_of_feed hp hf with ⟨-, hq⟩ | ⟨head, bodiless, hn, -⟩
    · simp [hp, hq]
    · cases hn
  · simp [hp, (Parser.body_of_feed hp hf).1]

theorem runs_answer {r : Receipt} {data : Bytes} {head : ResponseHead} {bodiless : Bool}
    {q : Parser} (hs : x.stage = .parsing plan r data)
    (hf : r.parser.feed data = (.ok (some (.head head bodiless)), q)) :
    x.Runs (.go quota) hub (x.answer plan { r with parser := q } head bodiless hub) := by
  have hg := givesBack_of_feed hs hf (by simp) (.go quota)
  obtain ⟨hseen, hq⟩ := headSeen_of_head hs hf
  have hy : x.Alike { x with
      keepAlive := x.keepAlive && !head.mustClose && head.start.status != 101 } :=
    ⟨rfl, rfl, rfl⟩
  unfold answer
  dsimp only
  split
  · next error ha => exact runs_fail hy (.unanswered hs hf ha) (.refl hub) hg
  · next answer ha =>
    split
    · next he =>
      have hnew : Exchange.headSeen { x with
          keepAlive := x.keepAlive && !head.mustClose && head.start.status != 101
          stage := .parsing plan { r with parser := q } [], mailbox := .filled (.ok answer) } =
          true := by
        rw [headSeen_of_receipt (r := { r with parser := q }) rfl]
        simpa using hq
      exact runs_of_number rfl
        (.answers hs hf ha he rfl (.of_stage (by simp) (by simp)) rfl hnew rfl rfl)
    · next hne => exact runs_abandon hy (.inl ⟨hseen, hne⟩) hg

theorem runs_takeChunk {r : Receipt} {data piece : Bytes} {q : Parser}
    (hs : x.stage = .parsing plan r data)
    (hf : r.parser.feed data = (.ok (some (.chunk piece)), q)) :
    x.Runs (.go quota) hub (x.takeChunk plan { r with parser := q } piece hub) := by
  have hg := givesBack_of_feed hs hf (by simp) (.go quota)
  obtain ⟨hseen, hq⟩ := headSeen_of_event hs hf (by simp)
  have hq : decide (q.phase.part ≠ .head) = true := by simpa using hq
  unfold takeChunk
  split
  · next ho => exact runs_fail (.refl x) (.tooLarge hs hf ho) (.refl hub) hg
  · split
    · refine runs_on (.of_stage (by simp) (by simp)) ⟨rfl, rfl, rfl⟩ ?_ rfl
      rw [hseen, headSeen_of_receipt (r := { r with parser := q }) rfl, hq]
    · have hoffer := headSeen_of_receipt (r := { r with parser := q })
        (x := { x with stage := .offering plan { r with parser := q } piece }) rfl
      rw [hq] at hoffer
      exact runs_on ⟨by simp, fun _ _ _ _ => hoffer⟩ ⟨rfl, rfl, rfl⟩ (hoffer.trans hseen.symm)
        rfl

theorem runs_complete {r : Receipt} {data : Bytes} {trailers : Fields} {q : Parser}
    (hs : x.stage = .parsing plan r data)
    (hf : r.parser.feed data = (.ok (some (.complete trailers)), q)) :
    x.Runs (.go quota) hub (x.complete (x.reusable { r with parser := q }) hub) := by
  have hg : x.givesBack (.go quota) = x.reusable { r with parser := q } := by
    simp only [givesBack, hs, hf]
  unfold complete
  dsimp only
  cases hc : x.connection with
  | none =>
    refine runs_of_number (by simp [number?, hc]) ?_
    exact .completes hs hf (.nothing hc) rfl rfl rfl rfl
  | some h =>
    unfold Runs
    rw [deeds_of_end hc rfl, hg]
    refine .completes hs hf ?_ rfl rfl rfl rfl
    by_cases hr : x.reusable { r with parser := q } = true
    · simp only [hr, ite_true]
      exact .released hc rfl
    · simp only [hr]
      exact .discarded hc rfl

theorem runs_parse {r : Receipt} {data : Bytes} (hs : x.stage = .parsing plan r data) :
    x.Runs (.go quota) hub (x.parse plan r data hub) := by
  unfold parse
  rcases hf : r.parser.feed data with ⟨error | _ | ⟨head, bodiless⟩ | piece | trailers, q⟩
  · exact runs_fail (.refl x) (.unparsed hs hf) (.refl hub) (givesBack_of_feed hs hf (by simp) _)
  · dsimp only
    split
    · next he =>
      exact runs_fail (.refl x) (.incomplete hs hf he) (.refl hub)
        (givesBack_of_feed hs hf (by simp) _)
    · refine runs_on (.of_stage (by simp) (by simp)) ⟨rfl, rfl, rfl⟩ ?_ rfl
      rw [headSeen_of_wait hs hf]
      exact headSeen_of_receipt (r := { r with parser := q }) rfl
  · exact runs_answer hs hf
  · exact runs_takeChunk hs hf
  · exact runs_complete hs hf

theorem runs_offer {r : Receipt} {data : Bytes} {result : Exchange × Hub}
    (hs : x.stage = .offering plan r data) (hseen : x.headSeen = true)
    (h : x.offer plan r data hub = some result) : x.Runs (.go quota) hub result := by
  unfold offer at h
  cases hc : x.channel.send data with
  | full => simp [hc] at h
  | refused =>
    simp only [hc, Option.some.injEq] at h
    subst h
    refine runs_abandon (.refl x) (.inr ⟨hseen, ?_⟩) (givesBack_of_stage (by simp [hs]) _)
    exact Channel.receiving_of_refused hc
  | sent c =>
    simp only [hc, Option.some.injEq] at h
    subst h
    obtain ⟨queue, rfl⟩ := Channel.queue_of_sent hc
    refine runs_of_number rfl
      (.continues (.of_stage (by simp) (by simp)) ⟨rfl, rfl, rfl⟩ ?_ rfl rfl)
    rw [headSeen_of_receipt (x := x) (r := r) (by simp [receipt?, hs])]
    rfl

end Steps

theorem isFinished_iff (x : Exchange) : x.isFinished = true ↔ x.stage = .finished := by
  unfold isFinished
  split <;> simp_all

theorem unfinished_of_push {x : Exchange} {m : Push} {hub : Hub} {result : Exchange × Hub}
    (h : x.push m hub = some result) : x.stage ≠ .finished := by
  intro hs
  cases m with
  | go quota => simp [push, step, hs] at h
  | cancel cause => simp [push, isFinished, hs] at h

/-- Whatever happens to an exchange, it is one of the courses. -/
theorem runs_of_push {x : Exchange} {m : Push} {hub : Hub} {result : Exchange × Hub}
    (hx : x.Wired) (running : x.stage ≠ .finished → x.Running)
    (h : x.push m hub = some result) : x.Runs m hub result := by
  cases m with
  | cancel cause =>
    simp only [push] at h
    split at h
    · cases h
    · next hf =>
      cases h
      rw [isFinished_iff] at hf
      have hg : x.givesBack (.cancel cause) = false := rfl
      simp only [cancel, x.isFinished_iff, hf, ite_false]
      exact runs_fail (.refl x) (.cancelled cause hf) (.refl hub) hg
  | go quota =>
    simp only [push, step] at h
    cases hs : x.stage with
    | dispatched =>
      simp only [hs, Option.some.injEq] at h
      exact h ▸ runs_begin hs
    | acquiring plan a =>
      simp only [hs] at h
      exact runs_acquire hx hs h
    | securing plan =>
      simp only [hs, Option.some.injEq] at h
      exact h ▸ runs_secure hs
    | writing plan p =>
      simp only [hs, Option.some.injEq] at h
      exact h ▸ runs_write hs
    | reading plan r =>
      simp only [hs] at h
      exact runs_read hs h
    | parsing plan r data =>
      simp only [hs, Option.some.injEq] at h
      exact h ▸ runs_parse hs
    | offering plan r data =>
      simp only [hs] at h
      exact runs_offer hs ((running (by simp [hs])).offers plan r data hs) h
    | finished => simp [hs] at h

/-- Whatever can go wrong with an exchange ends it. -/
theorem fails_of_faults {x : Exchange} {m : Push} {hub : Hub} {failure : Failure}
    (fault : x.Faults hub m failure) : ∃ result, x.push m hub = some result ∧
      x.Fails failure hub result.1 result.2 (x.deeds m result.1) := by
  have ends {y : Exchange} {hub₁ : Hub} (push : x.push m hub = some (y.fail failure hub₁))
      (h : x.Alike y) (calm : hub.Calm hub₁) (hg : x.givesBack m = false) :
      ∃ result, x.push m hub = some result ∧
        x.Fails failure hub result.1 result.2 (x.deeds m result.1) :=
    ⟨_, push, fails_fail h calm hg failure⟩
  cases fault with
  | cancelled cause running =>
    have hx : x.isFinished = false := Bool.eq_false_iff.2 fun hf => running (x.isFinished_iff.1 hf)
    refine ends ?_ (.refl x) (.refl hub) rfl
    simp [push, cancel, hx]
  | unplanned stage plan =>
    refine ends ?_ (.refl x) (.refl hub) (givesBack_of_stage (by simp [stage]) _)
    simp [push, step, stage, begin, plan]
  | unacquired stage step =>
    refine ends ?_ (.refl x) (Acquisition.calm_of_fail step)
      (givesBack_of_stage (by simp [stage]) _)
    simp [push, Exchange.step, stage, acquire, step]
  | unsecured stage found new refused =>
    refine ends ?_ (alike_detached found) (.refl hub) (givesBack_of_stage (by simp [stage]) _)
    simp [push, step, stage, secure, found, new, refused]
  | unnamed stage found new agreed nameless =>
    refine ends ?_ (alike_detached found) (.refl hub) (givesBack_of_stage (by simp [stage]) _)
    simp [push, step, stage, secure, found, new, agreed, nameless]
  | unproduced stage writes broken =>
    refine ends ?_ (.refl x) (.refl hub) (givesBack_of_stage (by simp [stage]) _)
    simp [push, step, stage, write, writes, broken]
  | unwritten stage next found write =>
    refine ends ?_ (.refl x) (.refl hub) (givesBack_of_stage (by simp [stage]) _)
    obtain ⟨rest, writes⟩ := List.head?_eq_some_iff.1 next
    simp [push, step, stage, Exchange.write, writes, found, write]
  | @unread _ _ _ _ n _ l _ stage found read =>
    refine ends ?_ (.refl x) (hub.calm_setLink n l) (givesBack_of_stage (by simp [stage]) _)
    simp [push, step, stage, Exchange.read, found, read]
  | unparsed stage feed =>
    refine ends ?_ (.refl x) (.refl hub) (givesBack_of_feed stage feed (by simp) _)
    simp [push, step, stage, parse, feed]
  | incomplete stage feed ended =>
    refine ends ?_ (.refl x) (.refl hub) (givesBack_of_feed stage feed (by simp) _)
    simp [push, step, stage, parse, feed, ended]
  | @unanswered _ _ _ _ _ head _ _ stage feed answer =>
    let y := { x with keepAlive := x.keepAlive && !head.mustClose && head.start.status != 101 }
    have hy : x.Alike y := ⟨rfl, rfl, rfl⟩
    refine ends (y := y) ?_ hy (.refl hub) (givesBack_of_feed stage feed (by simp) _)
    simp [push, step, stage, parse, feed, Exchange.answer, answer, y]
  | tooLarge stage feed over_ =>
    refine ends ?_ (.refl x) (.refl hub) (givesBack_of_feed stage feed (by simp) _)
    simp [push, step, stage, parse, feed, takeChunk, over_]
  | unconnected uses lost =>
    have hstage : ∀ plan r data, x.stage ≠ .parsing plan r data := by
      cases uses with
      | securing stage => simp [stage]
      | writing stage => simp [stage]
      | reading stage => simp [stage]
    refine ends ?_ (.refl x) (.refl hub) (givesBack_of_stage hstage _)
    cases uses with
    | securing stage => simp [push, step, stage, secure, lost]
    | reading stage => simp [push, step, stage, read, lost]
    | writing stage more =>
      obtain ⟨data, rest, writes⟩ := List.exists_cons_of_ne_nil more
      simp [push, step, stage, write, writes, lost]

end Exchange
end HttpClient
