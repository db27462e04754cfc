import HttpClient.Exchange
import HttpClient.Proofs.Pool.Custody
import HttpClient.Proofs.Response.Messages
set_option autoImplicit false

/-!
What one step of an exchange can do. `Turn` lists it case by case, each with all that the exchange
relied on and all that became of it; nothing else about steps is used elsewhere.
-/

namespace HttpClient

/-- Only which numbers count as in use may have changed. -/
structure Hub.Like (hub hub' : Hub) : Prop where
  idle : hub'.pool.idle = hub.pool.idle
  nextId : hub'.pool.nextId = hub.pool.nextId
  config : hub'.pool.config = hub.pool.config
  links : hub'.links = hub.links

theorem Hub.Like.refl (hub : Hub) : hub.Like hub := ⟨rfl, rfl, rfl, rfl⟩

theorem Hub.like_discard (hub : Hub) (h : Handle) : hub.Like (hub.discard h).2 :=
  ⟨rfl, rfl, rfl, rfl⟩

structure Handle.Carries (h h' : Handle) : Prop where
  id : h'.id = h.id
  reused : h'.reused = h.reused
  link : h'.transport.map (·.link) = h.transport.map (·.link)

namespace Exchange

structure Asks (x y : Exchange) : Prop where
  request : y.request = x.request
  options : y.options = x.options
  defaults : y.defaults = x.defaults

/-- The connection is the same, and what is known about keeping it. -/
structure Stays (x y : Exchange) : Prop where
  connection : y.connection = x.connection
  keepAlive : y.keepAlive = x.keepAlive

inductive Touched (x : Exchange) (hub : Hub) : Hub → Prop where
  | untouched : Touched x hub hub
  | link {h : Handle} {n : Nat} {l : Link} (found : x.linkOf hub = some (h, n, l)) (m : Link) :
      Touched x hub (hub.setLink n m)

/-- The exchange is over, and its connection was discarded, if it had one. -/
structure Quits (hub : Hub) (y : Exchange) (hub' : Hub) : Prop where
  stage : y.stage = .finished
  connection : y.connection = none
  like : hub.Like hub'

def Receives (y : Exchange) (plan : Plan) (r : Receipt) : Prop :=
  y.stage = .reading plan r ∨ y.stage = .parsing plan r [] ∨
    ∃ piece, y.stage = .offering plan r piece

/-- The end of the response has come, before the end of the stream and with nothing after it, and
all that was said allows the connection to be used again. -/
structure Completes (x : Exchange) (plan : Plan) (r : Receipt) (data : Bytes) (q : Parser)
    (h : Handle) : Prop where
  stage : x.stage = .parsing plan r data
  feed : ∃ trailers, r.parser.feed data = (.ok (some (.complete trailers)), q)
  keepAlive : x.keepAlive = true
  ended : r.ended = false
  remaining : q.buffer = []
  connection : x.connection = some h

inductive Turn (x : Exchange) (hub : Hub) (y : Exchange) (hub' : Hub) : Prop where
  | quit {hub₁ : Hub} (touched : x.Touched hub hub₁) (quits : Quits hub₁ y hub')
  | planned {plan : Plan} (stage : x.stage = .dispatched) (made : x.plan = .ok plan)
      (next : y.stage = .acquiring plan .start) (connection : y.connection = x.connection)
      (keepAlive : y.keepAlive = plan.prepared.keepAlive) (same : hub' = hub)
  | acquiring {plan : Plan} {a b : Acquisition} (stage : x.stage = .acquiring plan a)
      (step : a.step plan.endpoint hub = .next b hub') (next : y.stage = .acquiring plan b)
      (stays : x.Stays y)
  | acquired {plan : Plan} {a : Acquisition} {h : Handle} (stage : x.stage = .acquiring plan a)
      (step : a.step plan.endpoint hub = .done h hub')
      (next : y.stage = .securing plan ∨
        y.stage = .writing plan (.ofRequest plan.prepared x.request.body))
      (connection : y.connection = some h) (keepAlive : y.keepAlive = x.keepAlive)
  | unacquired {plan : Plan} {a : Acquisition} {error : AcquireError} {hub₁ : Hub}
      (stage : x.stage = .acquiring plan a) (step : a.step plan.endpoint hub = .fail error hub₁)
      (quits : Quits hub₁ y hub')
  | secured {plan : Plan} {h h' : Handle} (stage : x.stage = .securing plan)
      (connection : x.connection = some h) (carries : h.Carries h')
      (next : y.stage = .writing plan (.ofRequest plan.prepared x.request.body))
      (connection' : y.connection = some h') (keepAlive : y.keepAlive = x.keepAlive)
      (same : hub' = hub)
  | wrote {plan : Plan} {p : Payload} {data : Bytes} {rest : List Bytes} {h : Handle} {n : Nat}
      {l m : Link} (stage : x.stage = .writing plan p) (writes : p.writes = data :: rest)
      (found : x.linkOf hub = some (h, n, l)) (write : l.write data = .ok m)
      (next : y.stage = .writing plan { p with writes := rest }) (stays : x.Stays y)
      (same : hub' = hub.setLink n m)
  | written {plan : Plan} {p : Payload} (stage : x.stage = .writing plan p)
      (writes : p.writes = []) (failure : p.failure = none)
      (next : y.stage = .reading plan ⟨.forMethod x.request.method x.options.limits, 0, false⟩)
      (stays : x.Stays y) (same : hub' = hub)
  | read {plan : Plan} {r r' : Receipt} {quota : Nat} {data : Bytes} {h : Handle} {n : Nat}
      {l m : Link} (stage : x.stage = .reading plan r) (found : x.linkOf hub = some (h, n, l))
      (read : l.read quota = (some (.ok data), m)) (next : y.stage = .parsing plan r' data)
      (receipt : r'.ended = true ∧ r'.parser = r.parser.finish ∧ data = [] ∨
        r'.ended = r.ended ∧ r'.parser = r.parser ∧ data ≠ []) (stays : x.Stays y)
      (same : hub' = hub.setLink n m)
  | retried {plan : Plan} {r : Receipt} {hub₁ : Hub} (stage : x.stage = .reading plan r)
      (touched : x.Touched hub hub₁) (like : hub₁.Like hub')
      (next : y.stage = .acquiring plan .start) (connection : y.connection = none)
      (keepAlive : y.keepAlive = x.keepAlive)
  | parsed {plan : Plan} {r : Receipt} {data : Bytes} {e : Option Event} {q : Parser}
      (stage : x.stage = .parsing plan r data) (feed : r.parser.feed data = (.ok e, q))
      (next : y.Receives plan { r with parser := q }) (connection : y.connection = x.connection)
      (keepAlive : y.keepAlive = true → x.keepAlive = true ∧
        ∀ start ∈ e.toList.flatMap Event.heads,
          start.1.mustClose = false ∧ start.1.start.status ≠ 101)
      (same : hub' = hub) (silent : y.stage = .reading plan { r with parser := q } ↔ e = none)
  | offered {plan : Plan} {r : Receipt} {piece : Bytes} (stage : x.stage = .offering plan r piece)
      (next : y.stage = .parsing plan r []) (stays : x.Stays y) (same : hub' = hub)
  | returned {plan : Plan} {r : Receipt} {data : Bytes} {q : Parser} {h : Handle}
      (completes : x.Completes plan r data q h) (stage : y.stage = .finished)
      (connection : y.connection = none) (same : hub' = (hub.release h).2)

section Ends

variable {x y : Exchange}

theorem asks_discardConnection (h : x.Asks y) (hub : Hub) : x.Asks (y.discardConnection hub).1 := by
  unfold discardConnection
  cases y.connection <;> exact ⟨h.request, h.options, h.defaults⟩

theorem quits_discardConnection (hs : x.stage = .finished) (hub : Hub) :
    Quits hub (x.discardConnection hub).1 (x.discardConnection hub).2 := by
  unfold discardConnection
  cases hc : x.connection with
  | none => exact ⟨hs, hc, .refl hub⟩
  | some h => exact ⟨hs, rfl, hub.like_discard h⟩

theorem asks_fail (h : x.Asks y) (failure : Failure) (hub : Hub) :
    x.Asks (y.fail failure hub).1 := by
  unfold fail
  refine asks_discardConnection ?_ hub
  exact ⟨h.request, h.options, h.defaults⟩

theorem quits_fail (y : Exchange) (failure : Failure) (hub : Hub) :
    Quits hub (y.fail failure hub).1 (y.fail failure hub).2 :=
  quits_discardConnection rfl hub

theorem asks_abandon (h : x.Asks y) (hub : Hub) : x.Asks (y.abandon hub).1 := by
  unfold abandon
  refine asks_discardConnection ?_ hub
  exact ⟨h.request, h.options, h.defaults⟩

theorem quits_abandon (y : Exchange) (hub : Hub) :
    Quits hub (y.abandon hub).1 (y.abandon hub).2 :=
  quits_discardConnection rfl hub

end Ends

def Goes (x : Exchange) (hub : Hub) (result : Exchange × Hub) : Prop :=
  x.Asks result.1 ∧ x.Turn hub result.1 result.2

section Steps

variable {x y : Exchange} {hub hub₁ : Hub} {plan : Plan}

theorem Asks.refl (x : Exchange) : x.Asks x := ⟨rfl, rfl, rfl⟩

theorem Asks.trans {z : Exchange} (h : x.Asks y) (h' : y.Asks z) : x.Asks z :=
  ⟨h'.request.trans h.request, h'.options.trans h.options, h'.defaults.trans h.defaults⟩

theorem goes_fail (h : x.Asks y) (touched : x.Touched hub hub₁) (failure : Failure) :
    x.Goes hub (y.fail failure hub₁) :=
  ⟨asks_fail h failure hub₁, .quit touched (quits_fail y failure hub₁)⟩

theorem goes_abandon (h : x.Asks y) : x.Goes hub (y.abandon hub) :=
  ⟨asks_abandon h hub, .quit .untouched (quits_abandon y hub)⟩

theorem goes_begin (hs : x.stage = .dispatched) : x.Goes hub (x.begin hub) := by
  unfold begin
  cases hp : x.plan with
  | error failure => exact goes_fail (.refl x) .untouched failure
  | ok plan => exact ⟨⟨rfl, rfl, rfl⟩, .planned hs hp rfl rfl rfl rfl⟩

theorem goes_acquire {a : Acquisition} {result : Exchange × Hub}
    (hs : x.stage = .acquiring plan a) (h : x.acquire plan a hub = some result) :
    x.Goes hub result := by
  unfold acquire at h
  cases hm : a.step plan.endpoint hub with
  | wait => simp [hm] at h
  | next b hub' =>
    simp only [hm, Option.some.injEq] at h
    subst h
    exact ⟨⟨rfl, rfl, rfl⟩, .acquiring hs hm rfl ⟨rfl, rfl⟩⟩
  | fail error hub' =>
    simp only [hm, Option.some.injEq] at h
    subst h
    exact ⟨asks_fail (.refl x) _ _, .unacquired hs hm (quits_fail x _ _)⟩
  | done c hub' =>
    simp only [hm, Option.some.injEq] at h
    subst h
    by_cases hsec : plan.endpoint.secure = true
    · simp only [hsec, ite_true]
      exact ⟨⟨rfl, rfl, rfl⟩, .acquired hs hm (.inl rfl) rfl rfl⟩
    · simp only [hsec]
      exact ⟨⟨rfl, rfl, rfl⟩, .acquired hs hm (.inr rfl) rfl rfl⟩

theorem linkOf_eq_some {h : Handle} {n : Nat} {l : Link} (hl : x.linkOf hub = some (h, n, l)) :
    x.connection = some h ∧ hub.linkOf h = some (n, l) := by
  unfold linkOf at hl
  cases hc : x.connection with
  | none => simp [hc] at hl
  | some c =>
    cases hn : hub.linkOf c with
    | none => simp [hc, hn] at hl
    | some found =>
      simp only [hc, hn, Option.bind_eq_bind, Option.bind_some, Option.pure_def, Option.some.injEq,
        Prod.mk.injEq] at hl
      obtain ⟨rfl, rfl, rfl⟩ := hl
      exact ⟨rfl, hn⟩

theorem goes_secure (hs : x.stage = .securing plan) : x.Goes hub (x.secure plan hub) := by
  unfold secure
  cases hl : x.linkOf hub with
  | none => exact goes_fail (.refl x) .untouched _
  | some found =>
    obtain ⟨h, n, l⟩ := found
    obtain ⟨hc, hn⟩ := linkOf_eq_some hl
    have hwire := (Hub.linkOf_eq_some_iff.1 hn).1
    have hdetached : x.Asks { x with connection := some h.detached } := ⟨rfl, rfl, rfl⟩
    dsimp only
    split
    · exact ⟨⟨rfl, rfl, rfl⟩, .secured hs hc ⟨rfl, rfl, rfl⟩ rfl hc rfl rfl⟩
    · split
      · split
        · refine ⟨⟨rfl, rfl, rfl⟩, .secured hs hc ?_ rfl rfl rfl rfl⟩
          exact ⟨rfl, rfl, hwire.symm⟩
        · exact goes_fail hdetached .untouched _
      · exact goes_fail hdetached .untouched _

theorem goes_write {p : Payload} (hs : x.stage = .writing plan p) :
    x.Goes hub (x.write plan p hub) := by
  unfold write
  split
  · exact goes_fail (.refl x) .untouched _
  · next hw hf => exact ⟨⟨rfl, rfl, rfl⟩, .written hs hw hf rfl ⟨rfl, rfl⟩ rfl⟩
  · next data rest hw =>
    split
    · exact goes_fail (.refl x) .untouched _
    · next h n l hl =>
      split
      · exact goes_fail (.refl x) .untouched _
      · next m hm => exact ⟨⟨rfl, rfl, rfl⟩, .wrote hs hw hl hm rfl ⟨rfl, rfl⟩ rfl⟩

theorem goes_retry {r : Receipt} (hs : x.stage = .reading plan r) (touched : x.Touched hub hub₁) :
    x.Goes hub (x.retry plan hub₁) := by
  unfold retry discardConnection
  cases hc : x.connection with
  | none => exact ⟨⟨rfl, rfl, rfl⟩, .retried hs touched (.refl hub₁) rfl rfl rfl⟩
  | some h => exact ⟨⟨rfl, rfl, rfl⟩, .retried hs touched (hub₁.like_discard h) rfl rfl rfl⟩

theorem goes_read {quota : Nat} {r : Receipt} {result : Exchange × Hub}
    (hs : x.stage = .reading plan r) (h : x.read quota plan r hub = some result) :
    x.Goes hub result := by
  unfold read at h
  cases hl : x.linkOf hub with
  | none =>
    simp only [hl, Option.some.injEq] at h
    subst h
    exact goes_fail (.refl x) .untouched _
  | some found =>
    obtain ⟨c, n, l⟩ := found
    simp only [hl] at h
    rcases hr : l.read quota with ⟨_ | failure | data, m⟩
    · simp [hr] at h
    · simp only [hr, Option.some.injEq] at h
      subst h
      exact goes_fail (.refl x) (.link hl m) _
    · simp only [hr, Option.some.injEq] at h
      subst h
      unfold receive
      split
      · next he =>
        have hd : data = [] := List.isEmpty_iff.1 he
        subst hd
        split
        · exact goes_retry hs (.link hl m)
        · exact ⟨⟨rfl, rfl, rfl⟩, .read hs hl hr rfl (.inl ⟨rfl, rfl, rfl⟩) ⟨rfl, rfl⟩ rfl⟩
      · next he =>
        have hd : data ≠ [] := fun hd => he (List.isEmpty_iff.2 hd)
        exact ⟨⟨rfl, rfl, rfl⟩, .read hs hl hr rfl (.inr ⟨rfl, rfl, hd⟩) ⟨rfl, rfl⟩ rfl⟩

theorem goes_answer {r : Receipt} {data : Bytes} {head : ResponseHead} {bodiless : Bool}
    {q : Parser} (hs : x.stage = .parsing plan r data)
    (hf : r.parser.feed data = (.ok (some (.head head bodiless)), q)) :
    x.Goes hub (x.answer plan { r with parser := q } head bodiless hub) := by
  have hy : x.Asks { x with
      keepAlive := x.keepAlive && !head.mustClose && head.start.status != 101 } := ⟨rfl, rfl, rfl⟩
  unfold answer
  dsimp only
  split
  · exact goes_fail hy .untouched _
  · split
    · refine ⟨⟨rfl, rfl, rfl⟩, .parsed hs hf (.inr (.inl rfl)) rfl (fun hk => ?_) rfl (by simp)⟩
      simp only [Bool.and_eq_true, Bool.not_eq_true', bne_iff_ne] at hk
      simpa [Event.heads] using ⟨hk.1.1, hk.1.2, hk.2⟩
    · exact goes_abandon hy

theorem goes_takeChunk {r : Receipt} {data piece : Bytes} {q : Parser}
    (hs : x.stage = .parsing plan r data)
    (hf : r.parser.feed data = (.ok (some (.chunk piece)), q)) :
    x.Goes hub (x.takeChunk plan { r with parser := q } piece hub) := by
  unfold takeChunk
  split
  · exact goes_fail (.refl x) .untouched _
  · split
    · exact ⟨⟨rfl, rfl, rfl⟩, .parsed hs hf (.inr (.inl rfl)) rfl
        (fun hk => ⟨hk, by simp [Event.heads]⟩) rfl (by simp)⟩
    · exact ⟨⟨rfl, rfl, rfl⟩, .parsed hs hf (.inr (.inr ⟨piece, rfl⟩)) rfl
        (fun hk => ⟨hk, by simp [Event.heads]⟩) rfl (by simp)⟩

theorem goes_complete {r : Receipt} {data : Bytes} {trailers : Fields} {q : Parser}
    (hs : x.stage = .parsing plan r data)
    (hf : r.parser.feed data = (.ok (some (.complete trailers)), q)) :
    x.Goes hub (x.complete (x.reusable { r with parser := q }) hub) := by
  unfold complete
  dsimp only
  cases hc : x.connection with
  | none => exact ⟨⟨rfl, rfl, rfl⟩, .quit .untouched ⟨rfl, rfl, .refl hub⟩⟩
  | some h =>
    by_cases hr : x.reusable { r with parser := q } = true
    · simp only [hr, ite_true]
      refine ⟨⟨rfl, rfl, rfl⟩, ?_⟩
      simp only [reusable, Bool.and_eq_true, Bool.not_eq_true', List.isEmpty_iff] at hr
      exact .returned ⟨hs, ⟨_, hf⟩, hr.1.1, hr.1.2, hr.2, hc⟩ rfl rfl rfl
    · simp only [hr]
      exact ⟨⟨rfl, rfl, rfl⟩, .quit .untouched ⟨rfl, rfl, hub.like_discard h⟩⟩

theorem goes_parse {r : Receipt} {data : Bytes} (hs : x.stage = .parsing plan r data) :
    x.Goes hub (x.parse plan r data hub) := by
  unfold parse
  rcases hf : r.parser.feed data with ⟨error | _ | ⟨head, bodiless⟩ | piece | trailers, q⟩
  · exact goes_fail (.refl x) .untouched _
  · dsimp only
    split
    · exact goes_fail (.refl x) .untouched _
    · exact ⟨⟨rfl, rfl, rfl⟩, .parsed hs hf (.inl rfl) rfl (fun hk => ⟨hk, by simp⟩) rfl
        (by simp)⟩
  · exact goes_answer hs hf
  · exact goes_takeChunk hs hf
  · exact goes_complete hs hf

theorem goes_offer {r : Receipt} {data : Bytes} {result : Exchange × Hub}
    (hs : x.stage = .offering plan r data) (h : x.offer plan r data hub = some result) :
    x.Goes hub result := by
  unfold offer at h
  split at h
  · cases h
  · cases h
    exact goes_abandon (.refl x)
  · cases h
    exact ⟨⟨rfl, rfl, rfl⟩, .offered hs rfl ⟨rfl, rfl⟩ rfl⟩

theorem goes_of_step {quota : Nat} {result : Exchange × Hub}
    (h : x.step quota hub = some result) : x.Goes hub result := by
  unfold step at h
  cases hs : x.stage with
  | dispatched =>
    simp only [hs, Option.some.injEq] at h
    exact h ▸ goes_begin hs
  | acquiring plan a =>
    simp only [hs] at h
    exact goes_acquire hs h
  | securing plan =>
    simp only [hs, Option.some.injEq] at h
    exact h ▸ goes_secure hs
  | writing plan p =>
    simp only [hs, Option.some.injEq] at h
    exact h ▸ goes_write hs
  | reading plan r =>
    simp only [hs] at h
    exact goes_read hs h
  | parsing plan r data =>
    simp only [hs, Option.some.injEq] at h
    exact h ▸ goes_parse hs
  | offering plan r data =>
    simp only [hs] at h
    exact goes_offer hs h
  | finished => simp [hs] at h

end Steps

end Exchange
end HttpClient
