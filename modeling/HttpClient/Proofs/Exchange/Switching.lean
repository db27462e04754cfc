import HttpClient.Proofs.Exchange.Evolution
import HttpClient.Proofs.Exchange.KeepAlive
import HttpClient.Proofs.Fields.Values
import HttpClient.Proofs.Scenario.Answers
set_option autoImplicit false

/-!
Which connections are kept after a response, to the letter. The answer that the caller has got
decides together with the request: neither side asks for the end, and the status is not 101. A
tunnel that a CONNECT request has opened is kept like any other connection.
-/

namespace HttpClient

namespace Fields

variable {h h' : Fields} {n : String}

theorem hasToken_congr (hv : h'.values n = h.values n) (token : String) :
    h'.hasToken n token = h.hasToken n token := by
  simp only [hasToken, elements, hv]

theorem values_of_set_ne {m value : String} (hs : h.set m value = .ok h')
    (hm : Text.sameWord m n = false) : h'.values n = h.values n := by
  have hw := congrArg (·.values n) (without_of_set hs)
  simpa [values_without, hm] using hw

end Fields

namespace Answer

def mustClose (a : Answer) : Bool := ResponseHead.mustClose ⟨a.start, a.fields⟩

/-- With this answer the connection does not carry this protocol any more. -/
def switches (a : Answer) : Bool :=
  a.start.status == 101 ||
    Text.sameWord a.request.method "CONNECT" && 200 ≤ a.start.status && a.start.status < 300

section OfHead

variable {head : ResponseHead} {bodiless : Bool} {request : Request} {session : Option TlsSession}
  {source : Nat} {a : Answer}

theorem values_undoCodings {h h' : Fields} {decoders : List Decoder}
    (hu : undoCodings h = .ok (h', decoders)) : h'.values "Connection" = h.values "Connection" := by
  have hne : Text.sameWord "Content-Encoding" "Connection" = false := by decide
  unfold undoCodings at hu
  split at hu
  · dsimp only at hu
    split at hu
    · cases hu
      rfl
    · split at hu
      · cases hu
        simp [Fields.values_without, hne]
      · cases hs : h.set "Content-Encoding" (ContentCoding.render (ContentCoding.split
            Decoder.supported _).2) with
        | error error =>
          rw [hs] at hu
          cases hu
        | ok set =>
          rw [hs] at hu
          cases hu
          exact Fields.values_of_set_ne hs hne
  · cases hu
    rfl

theorem says_of_ofHead (h : ofHead head bodiless request session source = .ok a) :
    a.start = head.start ∧ a.mustClose = head.mustClose := by
  have hsame {fields : Fields} (hv : fields.values "Connection" = head.fields.values "Connection") :
      ResponseHead.mustClose ⟨head.start, fields⟩ = head.mustClose := by
    simp only [ResponseHead.mustClose, Fields.hasToken_congr hv, Fields.contains_congr hv]
  unfold ofHead at h
  cases bodiless with
  | true =>
    cases h
    exact ⟨rfl, rfl⟩
  | false =>
    cases hu : undoCodings head.fields with
    | error error =>
      simp only [hu] at h
      cases h
    | ok undone =>
      simp only [hu] at h
      cases h
      exact ⟨rfl, hsame (values_undoCodings hu)⟩

end OfHead

end Answer

namespace Exchange

def plan? (x : Exchange) : Option Plan :=
  match x.stage with
  | .acquiring plan _ | .securing plan | .writing plan _ | .reading plan _ | .parsing plan _ _
  | .offering plan _ _ => some plan
  | .dispatched | .finished => none

def answerKeeps (x : Exchange) : Bool :=
  match x.mailbox with
  | .filled (.ok a) => !a.mustClose && a.start.status != 101
  | _ => true

/-- What the exchange knows about keeping its connection is what both sides have said. -/
def Keeping (x : Exchange) : Prop :=
  ∀ plan, x.plan? = some plan →
    x.plan = .ok plan ∧ x.keepAlive = (plan.prepared.keepAlive && x.answerKeeps)

inductive Hears (x y : Exchange) : Prop where
  | ended (finished : y.plan? = none)
  | planned {plan : Plan} (made : x.plan = .ok plan) (next : y.plan? = some plan)
      (keepAlive : y.keepAlive = plan.prepared.keepAlive) (start : x.stage = .dispatched)
      (mailbox : y.mailbox = x.mailbox)
  | nothing (same : y.plan? = x.plan?) (keepAlive : y.keepAlive = x.keepAlive)
      (mailbox : y.mailbox = x.mailbox)
  | answered {a : Answer} (same : y.plan? = x.plan?) (waiting : x.mailbox = .empty)
      (mailbox : y.mailbox = .filled (.ok a))
      (keepAlive : y.keepAlive = (x.keepAlive && (!a.mustClose && a.start.status != 101)))

section Hearing

variable {x y : Exchange} {m : Push} {hub : Hub} {plan : Plan} {result : Exchange × Hub}

theorem hears_of_quits {hub' : Hub} (quits : Quits hub y hub') : x.Hears y :=
  .ended (by simp only [plan?, quits.stage])

theorem hears_answer {r : Receipt} {data : Bytes} {head : ResponseHead} {bodiless : Bool}
    {q : Parser} (hs : x.stage = .parsing plan r data) :
    x.Hears (x.answer plan { r with parser := q } head bodiless hub).1 := by
  unfold answer
  dsimp only
  split
  · exact hears_of_quits (quits_fail ..)
  · next a ha =>
    obtain ⟨hstart, hclose⟩ := Answer.says_of_ofHead ha
    split
    · next hempty =>
      refine .answered (a := a) (by simp only [plan?, hs]) hempty rfl ?_
      simp only [hstart, hclose, Bool.and_assoc]
    · exact hears_of_quits (quits_abandon ..)

theorem hears_parse {r : Receipt} {data : Bytes} (hs : x.stage = .parsing plan r data) :
    x.Hears (x.parse plan r data hub).1 := by
  have hplan : x.plan? = some plan := by simp only [plan?, hs]
  unfold parse
  rcases r.parser.feed data with ⟨error | _ | ⟨head, bodiless⟩ | piece | trailers, q⟩
  · exact hears_of_quits (quits_fail ..)
  · dsimp only
    split
    · exact hears_of_quits (quits_fail ..)
    · exact .nothing hplan.symm rfl rfl
  · exact hears_answer hs
  · dsimp only
    unfold takeChunk
    repeat' split
    · exact hears_of_quits (quits_fail ..)
    · exact .nothing hplan.symm rfl rfl
    · exact .nothing hplan.symm rfl rfl
  · refine .ended ?_
    dsimp only
    unfold complete
    dsimp only
    split <;> rfl

theorem mailbox_of_runs (runs : x.Runs m hub result)
    (hs : ∀ plan r data, x.stage ≠ .parsing plan r data) :
    result.1.plan? = none ∨ result.1.mailbox = x.mailbox := by
  unfold Runs at runs
  generalize x.deeds m result.1 = deeds at runs
  cases runs with
  | continues running quiet => exact .inr quiet.mailbox
  | acquires stage step running connection quiet => exact .inr quiet.mailbox
  | answers stage => exact absurd stage (hs _ _ _)
  | retries stage first nothing headSeen touched letsGo next retried connection quiet =>
    exact .inr quiet.mailbox
  | completes stage => exact absurd stage (hs _ _ _)
  | fails fault ended => exact .inl (by simp only [plan?, ended.finished])
  | abandons gone letsGo finished => exact .inl (by simp only [plan?, finished])

theorem hears_of_push (proper : x.Proper) (push : x.push m hub = some result) :
    x.Hears result.1 := by
  by_cases hs : ∃ plan r data, x.stage = .parsing plan r data
  · obtain ⟨plan, r, data, hs⟩ := hs
    cases m with
    | go quota =>
      simp only [Exchange.push, step, hs, Option.some.injEq] at push
      exact push ▸ hears_parse hs
    | cancel cause =>
      simp only [Exchange.push, isFinished, hs, Bool.false_eq_true, ite_false,
        Option.some.injEq] at push
      subst push
      simp only [cancel, isFinished, hs, Bool.false_eq_true, ite_false]
      exact hears_of_quits (quits_fail ..)
  · have hs : ∀ plan r data, x.stage ≠ .parsing plan r data :=
      fun plan r data h => hs ⟨plan, r, data, h⟩
    rcases mailbox_of_runs (proper.runs push) hs with hover | hmailbox
    · exact .ended hover
    cases (goes_of_push push).2 with
    | quit touched quits => exact hears_of_quits quits
    | unacquired stage step quits => exact hears_of_quits quits
    | returned completes stage => exact .ended (by simp only [plan?, stage])
    | planned stage made next connection keepAlive =>
      exact .planned made (by simp only [plan?, next]) keepAlive stage hmailbox
    | acquiring stage step next stays =>
      exact .nothing (by simp only [plan?, stage, next]) stays.keepAlive hmailbox
    | acquired stage step next connection keepAlive =>
      refine .nothing ?_ keepAlive hmailbox
      rcases next with next | next <;> simp only [plan?, stage, next]
    | secured stage connection carries next connection' keepAlive =>
      exact .nothing (by simp only [plan?, stage, next]) keepAlive hmailbox
    | wrote stage writes found write next stays =>
      exact .nothing (by simp only [plan?, stage, next]) stays.keepAlive hmailbox
    | written stage writes failure next stays =>
      exact .nothing (by simp only [plan?, stage, next]) stays.keepAlive hmailbox
    | read stage found read next receipt stays =>
      exact .nothing (by simp only [plan?, stage, next]) stays.keepAlive hmailbox
    | retried stage touched like next connection keepAlive =>
      exact .nothing (by simp only [plan?, stage, next]) keepAlive hmailbox
    | parsed stage => exact absurd stage (hs _ _ _)
    | offered stage next stays =>
      exact .nothing (by simp only [plan?, stage, next]) stays.keepAlive hmailbox

theorem Keeping.push (h : x.Keeping) (proper : x.Proper) (push : x.push m hub = some result) :
    result.1.Keeping := by
  intro plan hp
  rw [plan_of_asks (goes_of_push push).1]
  cases hears_of_push proper push with
  | ended finished => simp [finished] at hp
  | @planned made' made next keepAlive start mailbox =>
    cases next.symm.trans hp
    have hwaiting := (proper.stands.awaited (by simp [start])).unanswered
      (headSeen_of_nothing (by simp [receipt?, start]))
    have hkeeps : result.1.answerKeeps = true := by
      rcases hwaiting with hw | hw <;> simp only [answerKeeps, mailbox, hw]
    rw [keepAlive, hkeeps, Bool.and_true]
    exact ⟨made, rfl⟩
  | nothing same keepAlive mailbox =>
    obtain ⟨made, hkeep⟩ := h plan (same.symm.trans hp)
    refine ⟨made, ?_⟩
    rw [keepAlive, hkeep]
    simp only [answerKeeps, mailbox]
  | @answered a same waiting mailbox keepAlive =>
    obtain ⟨made, hkeep⟩ := h plan (same.symm.trans hp)
    refine ⟨made, ?_⟩
    rw [keepAlive, hkeep]
    simp only [answerKeeps, mailbox, waiting, Bool.and_true]

theorem Keeping.call (h : x.Keeping) (called : x.Called y) : y.Keeping := by
  intro plan hp
  have hplan : y.plan? = x.plan? := by simp only [plan?, called.stage]
  obtain ⟨made, hkeep⟩ := h plan (hplan.symm.trans hp)
  refine ⟨(plan_of_asks called.asks).trans made, ?_⟩
  rw [called.stays.keepAlive, hkeep]
  rcases called.mailbox with hm | ⟨hx, hy⟩
  · simp only [answerKeeps, hm]
  · simp only [answerKeeps, hx, hy]

theorem Evolves.answers {r : Request} (h : x.Evolves y) (hx : x.For r) : y.For r := by
  induction h with
  | refl => exact hx
  | tail before move ih =>
    cases move with
    | push pushed =>
      cases pushed with
      | @push m hub result push =>
        cases m with
        | go quota => exact ih.step push
        | cancel cause =>
          simp only [Exchange.push] at push
          split at push <;> cases push
          exact ih.cancel cause hub
    | call called =>
      refine ⟨called.asks.request.trans ih.request, fun a ha => ?_⟩
      rcases called.mailbox with hm | ⟨-, hm⟩
      · exact ih.answer a (hm ▸ ha)
      · rw [hm] at ha
        cases ha

theorem Evolves.keeping (h : x.Evolves y) (proper : x.Proper) (hx : x.Keeping) : y.Keeping := by
  induction h with
  | refl => exact hx
  | tail before move ih =>
    cases move with
    | push pushed =>
      cases pushed with
      | push push => exact ih.push (Evolves.proper before proper) push
    | call called => exact ih.call called

end Hearing

/-- The whole response has come, and the caller has got this answer for it. -/
structure Ends (x : Exchange) (plan : Plan) (r : Receipt) (q : Parser) (h : Handle) (a : Answer) :
    Prop where
  complete : ∃ data trailers, x.stage = .parsing plan r data ∧
    r.parser.feed data = (.ok (some (.complete trailers)), q)
  connection : x.connection = some h
  answer : x.mailbox = .filled (.ok a)

end Exchange

/-- A connection that is given back becomes idle: it is open, nothing can be read on it, and there
is room for it. -/
def Hub.keeps (hub : Hub) (h : Handle) : Bool :=
  h.transport.any fun t => !h.closed && hub.usable t.link &&
    hub.pool.idleCount h.key < hub.pool.config.maxIdlePerKey

theorem Hub.idle_release {hub : Hub} {h : Handle} {t : Transport} (ht : h.transport = some t) :
    (hub.release h).2.pool.idle = if hub.keeps h then
      ⟨h.id, h.key, t, h.tunneled, hub.now⟩ :: hub.pool.idle else hub.pool.idle := by
  simp only [release, Pool.release, keeps, ht, Option.any_some]
  exact apply_ite Pool.idle _ _ _

theorem Hub.idle_release_iff {hub : Hub} {h : Handle} (fresh : ∀ c ∈ hub.pool.idle, c.id ≠ h.id) :
    (∃ c ∈ (hub.release h).2.pool.idle, c ∉ hub.pool.idle) ↔ hub.keeps h = true := by
  cases ht : h.transport with
  | none => simp [release, Pool.release, keeps, ht]
  | some t =>
    rw [idle_release ht]
    cases hk : hub.keeps h with
    | false => simp
    | true =>
      simp only [ite_true, iff_true]
      exact ⟨_, List.mem_cons_self, fun hmem => fresh _ hmem rfl⟩

namespace Traffic

/-- All that is asked of a connection that a response has come on, before it can be idle. -/
structure Reusable (s : Traffic) (plan : Plan) (r : Receipt) (q : Parser) (h : Handle)
    (a : Answer) : Prop where
  asked : plan.prepared.head.fields.hasToken "Connection" "close" = false
  answered : a.mustClose = false
  status : a.start.status ≠ 101
  ended : r.ended = false
  remaining : q.buffer = []
  kept : s.hub.keeps h = true

section Ends

variable {s : Traffic} {i : Nat} {x : Exchange} {plan : Plan} {r : Receipt} {q : Parser}
  {h : Handle} {a : Answer}

theorem apply_of_ends (hx : s.exchange i = some x) (ends : x.Ends plan r q h a) (quota : Nat) :
    (s.apply (.step i quota)).hub =
      if x.reusable { r with parser := q } then (s.hub.release h).2 else (s.hub.discard h).2 := by
  obtain ⟨data, trailers, hs, hf⟩ := ends.complete
  simp only [apply, hx, Exchange.step, hs, Exchange.parse, hf, Exchange.complete, ends.connection,
    put]

theorem idle_iff_reusable_of_ends {origin : Pool} (orderly : Orderly origin s)
    (keeping : x.Keeping) (hx : s.exchange i = some x) (ends : x.Ends plan r q h a) (quota : Nat) :
    (∃ c ∈ (s.apply (.step i quota)).hub.pool.idle, c ∉ s.hub.pool.idle) ↔
      s.Reusable plan r q h a := by
  obtain ⟨data, trailers, hs, hf⟩ := ends.complete
  have hsound := orderly.sound i x hx
  have fresh : ∀ c ∈ s.hub.pool.idle, c.id ≠ h.id := by
    have hid := Exchange.id?_of_number (n := h.id) hsound.wired hsound.linked
      (by simp [Exchange.number?, ends.connection])
    intro c hc he
    rw [← tenure_of_exchange hx] at hid
    exact orderly.custody.ids.busy i h.id hid (he ▸ List.mem_map_of_mem hc)
  obtain ⟨made, hkeep⟩ := keeping plan (by simp only [Exchange.plan?, hs])
  have hreusable : x.reusable { r with parser := q } = true ↔
      plan.prepared.head.fields.hasToken "Connection" "close" = false ∧ a.mustClose = false ∧
        a.start.status ≠ 101 ∧ r.ended = false ∧ q.buffer = [] := by
    simp [Exchange.reusable, hkeep, Exchange.answerKeeps, ends.answer,
      Exchange.keepAlive_of_plan made, and_assoc]
  rw [apply_of_ends hx ends]
  by_cases hr : x.reusable { r with parser := q } = true
  · rw [if_pos hr, Hub.idle_release_iff fresh]
    obtain ⟨asked, answered, status, ended, remaining⟩ := hreusable.1 hr
    exact ⟨fun kept => ⟨asked, answered, status, ended, remaining, kept⟩, fun h => h.kept⟩
  · rw [if_neg hr]
    refine ⟨fun h => h.elim fun c hc => absurd hc.1 hc.2, fun h => absurd (hreusable.2 ?_) hr⟩
    exact ⟨h.asked, h.answered, h.status, h.ended, h.remaining⟩

end Ends

/-- In every run a connection becomes idle only when an exchange ends its response on it, with an
answer other than 101; and exactly if the request, the answer and the connection itself allow it.
That the answer opens a tunnel makes no difference. -/
theorem idle_iff_reusable (proxies : Proxies) (config : PoolConfig) (acts : List Act) :
    let s := (Traffic.new proxies config).run acts
    (∀ act c, c ∈ (s.apply act).hub.pool.idle → c ∉ s.hub.pool.idle →
      ∃ i quota x plan r q h a, act = .step i quota ∧ s.exchange i = some x ∧
        x.Ends plan r q h a ∧ c.id = h.id ∧ a.request = x.request ∧ a.start.status ≠ 101) ∧
    ∀ i quota x plan r q h a, s.exchange i = some x → x.Ends plan r q h a →
      ((∃ c ∈ (s.apply (.step i quota)).hub.pool.idle, c ∉ s.hub.pool.idle) ↔
        s.Reusable plan r q h a) := by
  intro s
  have orderly : Orderly (.new proxies config) s := (Orderly.new proxies config).run acts
  have hgrown {i : Nat} {x : Exchange} (hx : s.exchange i = some x) :
      x.Proper ∧ x.Keeping ∧ x.For x.request := by
    obtain ⟨request, options, defaults, evolves⟩ := exists_evolves proxies config acts hx
    have hnew := Exchange.proper_new i request options defaults
    refine ⟨evolves.proper hnew, evolves.keeping hnew fun _ h => (by cases h), ?_⟩
    rw [evolves.asks.request]
    exact evolves.answers ⟨rfl, fun a ha => by cases ha⟩
  have hends (i quota : Nat) (x : Exchange) (plan : Plan) (r : Receipt) (q : Parser) (h : Handle)
      (a : Answer) (hx : s.exchange i = some x) (ends : x.Ends plan r q h a) :=
    idle_iff_reusable_of_ends orderly (hgrown hx).2.1 hx ends quota
  refine ⟨fun act c hc hn => ?_, hends⟩
  obtain ⟨i, quota, x, plan, r, data, q, h, rfl, hx, completes, hc'⟩ :=
    completes_of_idle orderly hc hn
  obtain ⟨hid, -⟩ := Hub.quiet_of_release hc' hn
  obtain ⟨trailers, hf⟩ := completes.feed
  have hrunning := (hgrown hx).1.stands.awaited (by simp [completes.stage])
  obtain ⟨a, ha⟩ := hrunning.answered (Exchange.headSeen_of_event completes.stage hf (by simp)).1
  have ends : x.Ends plan r q h a :=
    ⟨⟨data, trailers, completes.stage, hf⟩, completes.connection, ha⟩
  exact ⟨i, quota, x, plan, r, q, h, a, rfl, hx, ends, hid, (hgrown hx).2.2.answer a ha,
    ((hends i quota x plan r q h a hx ends).1 ⟨c, hc, hn⟩).status⟩

/-- A CONNECT request whose answer has come but for the end of the response. -/
def connecting (status : String) : List Act :=
  let url : Url := ⟨"http", "", none, some "h", none, .segments [""], none, none⟩
  let answer := Bytes.ofText ("HTTP/1.1 " ++ status ++ "\r\n\r\n")
  [.start 0 (.ofUrl "CONNECT" url) .standard .empty, .step 0 1, .step 0 1,
    .far 0 (.greet .connected none), .step 0 1, .step 0 1, .step 0 1, .far 0 (.deliver answer),
    .step 0 100, .step 0 1]

example : ((new .none .standard).run (connecting "101 " ++ [.step 0 1])).hub.pool.idle = [] := by
  decide +kernel

/-- The tunnel that such a request opens is kept for other requests. -/
theorem tunnel_becomes_idle :
    let s := (new .none .standard).run (connecting "200 OK")
    (∃ x a, s.exchange 0 = some x ∧ x.number? = some 1 ∧ x.mailbox = .filled (.ok a) ∧
        a.request.method = "CONNECT" ∧ a.start.status = 200 ∧ a.switches = true) ∧
      s.hub.pool.idle = [] ∧ (s.apply (.step 0 1)).hub.pool.idle.map (·.id) = [1] := by
  intro s
  have hanswer : (s.exchange 0).any (fun x => x.number? == some 1 && match x.mailbox with
      | .filled (.ok a) => a.request.method == "CONNECT" && a.start.status == 200 && a.switches
      | _ => false) = true := by
    decide +kernel
  refine ⟨?_, by decide +kernel, by decide +kernel⟩
  cases hx : s.exchange 0 with
  | none => simp [hx] at hanswer
  | some x =>
    simp only [hx, Option.any_some, Bool.and_eq_true, beq_iff_eq] at hanswer
    obtain ⟨hnumber, hanswer⟩ := hanswer
    split at hanswer
    · next a ha =>
      simp only [Bool.and_eq_true, beq_iff_eq] at hanswer
      exact ⟨x, a, rfl, hnumber, ha, hanswer.1.1, hanswer.1.2, hanswer.2⟩
    · cases hanswer

end Traffic
end HttpClient
