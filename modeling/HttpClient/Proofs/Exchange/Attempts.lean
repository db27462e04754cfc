import HttpClient.Proofs.Exchange.Efforts
import HttpClient.Proofs.Exchange.WholeBody
import Mathlib.Data.Set.List
set_option autoImplicit false

/-!
How often a request is sent. An exchange is pushed on, each time with whatever the hub has become
by then, and a record, which nothing reads, is kept of its attempts: what was dialed and acquired,
what was written where, and what was read.
-/

namespace HttpClient

/-- One attempt at a request: all that was done for it with connections. -/
structure Attempt where
  dialed : Nat
  acquired : List Handle
  asked : Nat → Bytes
  written : Nat → Bytes
  reads : List (Except IoFailure Bytes)

namespace Attempt

def blank : Attempt := ⟨0, [], fun _ => [], fun _ => [], []⟩

def renew (a : Attempt) (x : Exchange) (m : Push) (hub : Hub) (y : Exchange) (hub' : Hub) :
    Attempt where
  dialed := a.dialed + (hub'.links.length - hub.links.length)
  acquired := a.acquired ++ if x.connection.isNone then y.connection.toList else []
  asked n := a.asked n ++ if x.connection.isNone then hub.added hub' n else []
  written n := a.written n ++ if x.connection.isSome then hub.added hub' n else []
  reads := a.reads ++ (x.gets m hub).toList

/-- The request has been written to its end, on the connection that was acquired. `o` is the
exchange as it was in the beginning. -/
def Whole (o : Exchange) (a : Attempt) : Prop :=
  ∃ plan h n, o.plan = .ok plan ∧ (o.payload plan).failure = none ∧ h ∈ a.acquired ∧
    h.transport.map (·.link) = some n ∧ a.written n = (o.payload plan).writes.flatten

/-- An attempt takes one connection at most. Nothing is written but what has been prepared, in
order and on that connection, and what asks for a tunnel to it. Nothing is read before all of it
is written. -/
structure Proper (o : Exchange) (a : Attempt) : Prop where
  dialed : a.dialed ≤ 1
  acquired : a.acquired.length ≤ 1
  asked : ∀ n, a.asked n ≠ [] → ∃ plan, o.plan = .ok plan ∧
    RequestHead.encodeConnect plan.endpoint.authority = .ok (a.asked n)
  there : ∀ n, a.written n ≠ [] → ∃ h ∈ a.acquired, h.transport.map (·.link) = some n
  request : ∀ n, a.written n ≠ [] →
    ∃ plan, o.plan = .ok plan ∧ a.written n <+: (o.payload plan).writes.flatten
  whole : a.reads ≠ [] → a.Whole o

/-- Nothing was done for it since, but for reading. -/
structure Still (a b : Attempt) : Prop where
  dialed : b.dialed = a.dialed
  acquired : b.acquired = a.acquired
  asked : b.asked = a.asked
  written : b.written = a.written

end Attempt

/-- An exchange with the record of its attempts: those that were given up, and the one that
lasts. -/
structure Errand where
  exchange : Exchange
  past : List Attempt
  now : Attempt

namespace Errand

inductive Act where
  /-- The exchange goes on. It reads one octet at least, if there is any. -/
  | go (quota : Nat) (hub : Hub)
  | cancel (cause : Cause) (hub : Hub)
  | leave
  | pull (reader : Reader)

def start (x : Exchange) : Errand := ⟨x, [], .blank⟩

def put (s : Errand) (m : Push) (hub : Hub) (result : Exchange × Hub) : Errand :=
  let now := s.now.renew s.exchange m hub result.1 result.2
  if s.exchange.restarts result.1 then ⟨result.1, s.past ++ [now], .blank⟩
  else ⟨result.1, s.past, now⟩

def push (s : Errand) (m : Push) (hub : Hub) : Errand :=
  match s.exchange.push m hub with
  | none => s
  | some result => s.put m hub result

def apply (s : Errand) : Act → Errand
  | .go quota hub => s.push (.go (quota + 1)) hub
  | .cancel cause hub => s.push (.cancel cause) hub
  | .leave => { s with exchange := s.exchange.leave }
  | .pull reader => { s with exchange := (s.exchange.pull reader).2.2 }

def run (s : Errand) (acts : List Act) : Errand := acts.foldl apply s

structure Still (s t : Errand) : Prop where
  past : t.past = s.past
  now : s.now.Still t.now

end Errand

theorem Link.read_nothing_iff (l : Link) (quota : Nat) :
    (l.read (quota + 1)).1 = some (.ok []) ↔ l.inbound = [] ∧ l.ending = some .closed := by
  unfold read
  cases hi : l.inbound with
  | nil => cases he : l.ending with
    | none => simp
    | some ending => cases ending <;> simp
  | cons c rest => simp

namespace Attempt

def Asked (a : Attempt) (plan : Plan) : Prop :=
  ∀ n, a.asked n ≠ [] → RequestHead.encodeConnect plan.endpoint.authority = .ok (a.asked n)

structure Seeks (a : Attempt) (plan : Plan) (q : Acquisition) : Prop where
  dialed : a.dialed ≤ 1
  undialed : q = .start → a.dialed = 0
  asked : a.Asked plan
  unasked : (∀ h p, q ≠ .tunnelling h p) → ∀ n, a.asked n = []
  acquired : a.acquired = []
  written : ∀ n, a.written n = []
  reads : a.reads = []

structure On (a : Attempt) (plan : Plan) (x : Exchange) (n : Nat) : Prop where
  dialed : a.dialed ≤ 1
  asked : a.Asked plan
  acquired : ∃ h, a.acquired = [h] ∧ h.transport.map (·.link) = some n
  connection : ∃ c, x.connection = some c ∧ c.transport.map (·.link) = some n
  elsewhere : ∀ k, k ≠ n → a.written k = []

structure Sent (o : Exchange) (a : Attempt) (x : Exchange) (plan : Plan) : Prop where
  planned : o.plan = .ok plan
  unbroken : (o.payload plan).failure = none
  written : ∃ n, a.On plan x n ∧ a.written n = (o.payload plan).writes.flatten

/-- What an attempt has come to when its exchange is `x`. -/
def Fits (o : Exchange) (a : Attempt) (x : Exchange) : Prop :=
  match x.stage with
  | .dispatched => a = blank ∧ x.connection = none
  | .acquiring plan q => o.plan = .ok plan ∧ x.connection = none ∧ a.Seeks plan q
  | .securing plan => o.plan = .ok plan ∧ a.reads = [] ∧ ∃ n, a.On plan x n ∧ a.written n = []
  | .writing plan p => o.plan = .ok plan ∧ a.reads = [] ∧ p.failure = (o.payload plan).failure ∧
      ∃ n, a.On plan x n ∧ a.written n ++ p.writes.flatten = (o.payload plan).writes.flatten
  | .reading plan r => a.Sent o x plan ∧ r.ended = false ∧ (a.reads ≠ [] → 0 < r.total)
  | .parsing plan r _ | .offering plan r _ =>
    a.Sent o x plan ∧ a.reads ≠ [] ∧ (r.ended = true ∨ 0 < r.total)
  | .finished => x.connection = none ∧ a.Proper o

/-- What is known when an attempt is given up for another one. -/
structure GivenUp (o : Exchange) (a : Attempt) (x : Exchange) (m : Push) (hub : Hub) (y : Exchange)
    (hub' : Hub) : Prop where
  first : x.retried = false
  retried : y.retried = true
  unread : a.reads = []
  got : x.gets m hub = some (.ok [])
  proper : (a.renew x m hub y hub').Proper o
  fits : blank.Fits o y

section Renewals

variable {o x y : Exchange} {a : Attempt} {m : Push} {hub hub' : Hub} {plan : Plan} {n : Nat}

theorem renew_of_sent (hs : hub'.sent = hub.sent)
    (hc : x.connection = none → y.connection = none) :
    a.renew x m hub y hub' = { a with reads := a.reads ++ (x.gets m hub).toList } := by
  simpa [renew, Hub.added_of_sent hs, Hub.length_of_sent hs] using hc

theorem renew_of_unconnected (hx : x.connection = none) : a.renew x m hub y hub' =
    { a with
      dialed := a.dialed + (hub'.links.length - hub.links.length)
      acquired := a.acquired ++ y.connection.toList
      asked := fun n => a.asked n ++ hub.added hub' n } := by
  simp [renew, hx, Exchange.gets_of_unconnected hx]

theorem renew_of_write {l l' : Link} {data : Bytes} (hx : x.connection.isSome = true)
    (hs : ∀ plan r, x.stage ≠ .reading plan r) (hl : hub.links[n]? = some l)
    (ho : l'.outbound = l.outbound ++ data) : a.renew x m hub y (hub.setLink n l') =
    { a with written := fun k => a.written k ++ if k = n then data else [] } := by
  have hnone : x.connection.isNone = false := by simpa using hx
  have hlength : (hub.setLink n l').links.length = hub.links.length := by simp [Hub.setLink]
  simp [renew, hx, hnone, hlength, Hub.added_setLink hl ho, Exchange.gets_of_stage hs]

theorem On.proper {sent : Bytes} (h : a.On plan x n) (planned : o.plan = .ok plan)
    (written : a.written n ++ sent = (o.payload plan).writes.flatten)
    (whole : a.reads ≠ [] → sent = [] ∧ (o.payload plan).failure = none) : a.Proper o := by
  obtain ⟨c, hc, hlink⟩ := h.acquired
  have hhere : ∀ k, a.written k ≠ [] → k = n := fun k hk =>
    Decidable.byContradiction fun hne => hk (h.elsewhere k hne)
  refine ⟨h.dialed, by simp [hc], fun k hk => ⟨plan, planned, h.asked k hk⟩, fun k hk => ?_,
    fun k hk => ?_, fun hr => ?_⟩
  · rw [hhere k hk]
    exact ⟨c, by simp [hc], hlink⟩
  · rw [hhere k hk]
    exact ⟨plan, planned, sent, written⟩
  · obtain ⟨rfl, hfail⟩ := whole hr
    exact ⟨plan, c, n, planned, hfail, by simp [hc], hlink, by simpa using written⟩

theorem On.next (h : a.On plan x n) (hc : y.connection = x.connection)
    (reads : List (Except IoFailure Bytes)) : On { a with reads := reads } plan y n :=
  ⟨h.dialed, h.asked, h.acquired, hc ▸ h.connection, h.elsewhere⟩

theorem Sent.next (h : a.Sent o x plan) (hc : y.connection = x.connection)
    (reads : List (Except IoFailure Bytes)) : Sent o { a with reads := reads } y plan := by
  obtain ⟨n, on, written⟩ := h.written
  exact ⟨h.planned, h.unbroken, n, on.next hc reads, written⟩

theorem Sent.proper (h : a.Sent o x plan) : a.Proper o := by
  obtain ⟨n, on, written⟩ := h.written
  exact on.proper h.planned ((List.append_nil _).trans written) fun _ => ⟨rfl, h.unbroken⟩

theorem Seeks.proper {q : Acquisition} (h : a.Seeks plan q) (planned : o.plan = .ok plan) :
    a.Proper o :=
  ⟨h.dialed, by simp [h.acquired], fun n hn => ⟨plan, planned, h.asked n hn⟩,
    fun n hn => absurd (h.written n) hn, fun n hn => absurd (h.written n) hn,
    fun hr => absurd h.reads hr⟩

theorem proper_blank : blank.Proper o := by
  constructor <;> simp [blank]

theorem Fits.proper (h : a.Fits o x) : a.Proper o := by
  unfold Fits at h
  split at h
  · exact h.1 ▸ proper_blank
  · exact h.2.2.proper h.1
  · next plan _ =>
    obtain ⟨planned, reads, n, on, written⟩ := h
    have hnothing : a.written n ++ (o.payload plan).writes.flatten =
        (o.payload plan).writes.flatten := by rw [written, List.nil_append]
    exact on.proper planned hnothing (by simp [reads])
  · obtain ⟨planned, reads, -, n, on, written⟩ := h
    exact on.proper planned written (by simp [reads])
  · exact h.1.proper
  · exact h.1.proper
  · exact h.1.proper
  · exact h.2

theorem Fits.proper_gets (h : a.Fits o x) (m : Push) (hub : Hub) :
    Proper o { a with reads := a.reads ++ (x.gets m hub).toList } := by
  by_cases hs : ∃ plan r, x.stage = .reading plan r
  · obtain ⟨plan, r, hs⟩ := hs
    simp only [Fits, hs] at h
    exact (h.1.next rfl _).proper
  · simp only [not_exists] at hs
    rw [Exchange.gets_of_stage hs, Option.toList_none, List.append_nil]
    exact h.proper

theorem On.isSome (h : a.On plan x n) : x.connection.isSome = true := by
  obtain ⟨c, hc, -⟩ := h.connection
  rw [hc]
  rfl

theorem On.renew_of_sent (h : a.On plan x n) (hs : hub'.sent = hub.sent) :
    a.renew x m hub y hub' = { a with reads := a.reads ++ (x.gets m hub).toList } :=
  Attempt.renew_of_sent hs fun hx => by
    have := h.isSome
    simp [hx] at this

theorem Sent.renew_of_sent (h : a.Sent o x plan) (hs : hub'.sent = hub.sent) :
    a.renew x m hub y hub' = { a with reads := a.reads ++ (x.gets m hub).toList } := by
  obtain ⟨n, on, -⟩ := h.written
  exact on.renew_of_sent hs

theorem On.write (h : a.On plan x n) (hc : y.connection = x.connection) (data : Bytes) :
    On { a with written := fun k => a.written k ++ if k = n then data else [] } plan y n :=
  ⟨h.dialed, h.asked, h.acquired, hc ▸ h.connection, fun k hk => by simp [h.elsewhere k hk, hk]⟩

theorem Seeks.on {q : Acquisition} {c : Handle} (h : a.Seeks plan q) (hc : y.connection = some c)
    (hlink : c.transport.map (·.link) = some n) : On { a with acquired := [c] } plan y n :=
  ⟨h.dialed, h.asked, ⟨c, rfl, hlink⟩, ⟨c, hc, hlink⟩, fun k _ => h.written k⟩

theorem Seeks.renew_of_done {q : Acquisition} {c : Handle} (h : a.Seeks plan q)
    (hx : x.connection = none) (hc : y.connection = some c) (hs : hub'.sent = hub.sent) :
    a.renew x m hub y hub' = { a with acquired := [c] } := by
  simp [renew_of_unconnected hx, hc, Hub.length_of_sent hs, Hub.added_of_sent hs, h.acquired]

theorem Seeks.next {q q' : Acquisition} (h : a.Seeks plan q)
    (step : q.Seeks plan.endpoint hub q' hub') :
    Seeks { a with
      dialed := a.dialed + (hub'.links.length - hub.links.length)
      asked := fun n => a.asked n ++ hub.added hub' n } plan q' := by
  cases step with
  | dials sent =>
    have hlength : hub'.links.length = hub.links.length + 1 := by
      simpa [Hub.sent] using congrArg List.length sent
    have hasked (n : Nat) : a.asked n ++ hub.added hub' n = [] := by
      rw [h.unasked (by simp), Hub.added_of_dial sent, List.append_nil]
    exact ⟨by simp [h.undialed rfl, hlength], by simp, fun n hn => absurd (hasked n) hn,
      fun _ => hasked, h.acquired, h.written, h.reads⟩
  | asks length asked =>
    refine ⟨by simpa [length] using h.dialed, by simp, fun n hn => ?_,
      fun hq => absurd rfl (hq _ _), h.acquired, h.written, h.reads⟩
    simp only [h.unasked (by simp), List.nil_append] at hn ⊢
    exact asked n hn
  | hears sent =>
    refine ⟨by simpa [Hub.length_of_sent sent] using h.dialed, by simp, fun n hn => ?_,
      fun hq => absurd rfl (hq _ _), h.acquired, h.written, h.reads⟩
    simp only [Hub.added_of_sent sent, List.append_nil] at hn ⊢
    exact h.asked n hn

theorem renew_of_finished (e : x.Effort m hub (y, hub')) (t : x.Turn hub y hub')
    (hy : y.stage = .finished) :
    a.renew x m hub y hub' = { a with reads := a.reads ++ (x.gets m hub).toList } :=
  renew_of_sent (e.sent_of_finished hy) fun _ => t.connection_of_finished hy

section Turns

variable {h : Handle} {l l' : Link} {p : Payload} {r : Receipt} {data : Bytes}

theorem fits_planned (fits : a.Fits o x) (asks : o.Asks x) (stage : x.stage = .dispatched)
    (made : x.plan = .ok plan) (next : y.stage = .acquiring plan .start)
    (connection : y.connection = x.connection) : (a.renew x m hub y hub).Fits o y := by
  simp only [Fits, stage] at fits
  obtain ⟨rfl, hx⟩ := fits
  have hy := connection.trans hx
  rw [renew_of_sent rfl fun _ => hy, Exchange.gets_of_unconnected hx]
  simp only [Fits, next]
  refine ⟨(Exchange.plan_of_asks asks).symm.trans made, hy, ?_⟩
  constructor <;> simp [blank, Asked]

theorem fits_acquiring {q q' : Acquisition} (fits : a.Fits o x)
    (stage : x.stage = .acquiring plan q) (step : q.step plan.endpoint hub = .next q' hub')
    (next : y.stage = .acquiring plan q') (stays : x.Stays y) :
    (a.renew x m hub y hub').Fits o y := by
  simp only [Fits, stage] at fits
  obtain ⟨planned, hx, seeks⟩ := fits
  have hy : y.connection = none := stays.connection.trans hx
  rw [renew_of_unconnected hx, hy, Option.toList_none, List.append_nil]
  simp only [Fits, next]
  exact ⟨planned, hy, seeks.next (Acquisition.seeks_of_next step)⟩

theorem fits_acquired {q : Acquisition} (fits : a.Fits o x) (asks : o.Asks x)
    (stage : x.stage = .acquiring plan q) (step : q.step plan.endpoint hub = .done h hub')
    (next : y.stage = .securing plan ∨ y.stage = .writing plan (x.payload plan))
    (connection : y.connection = some h) : (a.renew x m hub y hub').Fits o y := by
  simp only [Fits, stage] at fits
  obtain ⟨planned, hx, seeks⟩ := fits
  obtain ⟨n, l, hl⟩ := Acquisition.linkOf_of_done step
  have on := seeks.on connection (Hub.linkOf_eq_some_iff.1 hl).1
  rw [seeks.renew_of_done hx connection (Acquisition.sent_of_done step)]
  rcases next with next | next
  · simp only [Fits, next]
    exact ⟨planned, seeks.reads, n, on, seeks.written n⟩
  · rw [Exchange.payload_of_asks asks] at next
    simp only [Fits, next]
    refine ⟨planned, seeks.reads, trivial, n, on, ?_⟩
    rw [seeks.written, List.nil_append]

theorem fits_secured {h' : Handle} (fits : a.Fits o x) (asks : o.Asks x)
    (stage : x.stage = .securing plan) (connection : x.connection = some h)
    (carries : h.Carries h') (next : y.stage = .writing plan (x.payload plan))
    (connection' : y.connection = some h') : (a.renew x m hub y hub).Fits o y := by
  simp only [Fits, stage] at fits
  obtain ⟨planned, reads, n, on, written⟩ := fits
  obtain ⟨c, hc, hlink⟩ := on.connection
  cases connection.symm.trans hc
  rw [on.renew_of_sent rfl, Exchange.gets_of_stage (by simp [stage])]
  rw [Exchange.payload_of_asks asks] at next
  simp only [Fits, next]
  refine ⟨planned, by simp [reads], trivial, n, ?_, ?_⟩
  · exact ⟨on.dialed, on.asked, on.acquired, ⟨h', connection', carries.link.trans hlink⟩,
      on.elsewhere⟩
  · rw [written, List.nil_append]

theorem fits_wrote {rest : List Bytes} (fits : a.Fits o x) (stage : x.stage = .writing plan p)
    (writes : p.writes = data :: rest) (found : x.linkOf hub = some (h, n, l))
    (write : l.write data = .ok l') (next : y.stage = .writing plan { p with writes := rest })
    (stays : x.Stays y) : (a.renew x m hub y (hub.setLink n l')).Fits o y := by
  simp only [Fits, stage] at fits
  obtain ⟨planned, reads, failure, k, on, written⟩ := fits
  obtain ⟨c, hc, hlink⟩ := on.connection
  obtain ⟨hx, hn⟩ := Exchange.linkOf_eq_some found
  obtain ⟨hwire, hl⟩ := Hub.linkOf_eq_some_iff.1 hn
  cases hx.symm.trans hc
  cases hwire.symm.trans hlink
  rw [renew_of_write on.isSome (by simp [stage]) hl (Link.outbound_of_write write)]
  simp only [Fits, next]
  refine ⟨planned, reads, failure, n, on.write stays.connection data, ?_⟩
  simpa [writes] using written

theorem fits_written (fits : a.Fits o x) (stage : x.stage = .writing plan p)
    (writes : p.writes = []) (failure : p.failure = none)
    (next : y.stage = .reading plan ⟨x.reader, 0, false⟩) (stays : x.Stays y) :
    (a.renew x m hub y hub).Fits o y := by
  simp only [Fits, stage] at fits
  obtain ⟨planned, reads, hfailure, n, on, written⟩ := fits
  rw [on.renew_of_sent rfl, Exchange.gets_of_stage (by simp [stage])]
  simp only [Fits, next]
  refine ⟨⟨planned, hfailure.symm.trans failure, n, on.next stays.connection _, ?_⟩, trivial, ?_⟩
  · simpa [writes] using written
  · simp [reads]

theorem fits_read {r' : Receipt} (fits : a.Fits o x) (e : x.Effort m hub (y, hub'))
    (stage : x.stage = .reading plan r) (next : y.stage = .parsing plan r' data)
    (stays : x.Stays y) : (a.renew x m hub y hub').Fits o y := by
  simp only [Fits, stage] at fits
  obtain ⟨sent, -, -⟩ := fits
  obtain ⟨hgets, heard, hsent⟩ := e.heard_of_parsing stage next
  rw [sent.renew_of_sent hsent, hgets]
  simp only [Fits, next]
  exact ⟨sent.next stays.connection _, by simp, heard⟩

theorem fits_parsed {q : Parser} (fits : a.Fits o x) (e : x.Effort m hub (y, hub))
    (stage : x.stage = .parsing plan r data) (next : y.Receives plan { r with parser := q })
    (connection : y.connection = x.connection) : (a.renew x m hub y hub).Fits o y := by
  simp only [Fits, stage] at fits
  obtain ⟨sent, reads, heard⟩ := fits
  rw [sent.renew_of_sent rfl, Exchange.gets_of_stage (by simp [stage])]
  have hnext := sent.next connection (a.reads ++ Option.toList none)
  rcases next with next | next | ⟨piece, next⟩
  · have hended := e.not_ended next
    simp only [Fits, next]
    exact ⟨hnext, hended, fun _ => heard.resolve_left (by simpa using hended)⟩
  · simp only [Fits, next]
    exact ⟨hnext, by simpa using reads, heard⟩
  · simp only [Fits, next]
    exact ⟨hnext, by simpa using reads, heard⟩

theorem fits_offered {piece : Bytes} (fits : a.Fits o x) (stage : x.stage = .offering plan r piece)
    (next : y.stage = .parsing plan r []) (stays : x.Stays y) :
    (a.renew x m hub y hub).Fits o y := by
  simp only [Fits, stage] at fits
  obtain ⟨sent, reads, heard⟩ := fits
  rw [sent.renew_of_sent rfl, Exchange.gets_of_stage (by simp [stage])]
  simp only [Fits, next]
  exact ⟨sent.next stays.connection _, by simpa using reads, heard⟩

end Turns

theorem Fits.renew (h : a.Fits o x) (asks : o.Asks x) (e : x.Effort m hub (y, hub'))
    (t : x.Turn hub y hub') (hr : x.restarts y = false) :
    (a.renew x m hub y hub').Fits o y := by
  by_cases hy : y.stage = .finished
  · rw [renew_of_finished e t hy]
    simp only [Fits, hy]
    exact ⟨t.connection_of_finished hy, h.proper_gets m hub⟩
  cases t with
  | quit touched quits => exact absurd quits.stage hy
  | unacquired stage step quits => exact absurd quits.stage hy
  | returned completes stage => exact absurd stage hy
  | retried stage touched like next => simp [Exchange.restarts, stage, next] at hr
  | planned stage made next connection keepAlive same =>
    rw [same]
    exact fits_planned h asks stage made next connection
  | acquiring stage step next stays => exact fits_acquiring h stage step next stays
  | acquired stage step next connection keepAlive =>
    exact fits_acquired h asks stage step next connection
  | secured stage connection carries next connection' keepAlive same =>
    rw [same]
    exact fits_secured h asks stage connection carries next connection'
  | wrote stage writes found write next stays same =>
    rw [same]
    exact fits_wrote h stage writes found write next stays
  | written stage writes failure next stays same =>
    rw [same]
    exact fits_written h stage writes failure next stays
  | read stage found read next receipt stays same => exact fits_read h e stage next stays
  | parsed stage feed next connection keepAlive same =>
    subst same
    exact fits_parsed h e stage next connection
  | offered stage next stays same =>
    rw [same]
    exact fits_offered h stage next stays

/-- An attempt is given up only after nothing at all has come for a request that was written to
its end. -/
theorem Fits.giveUp (h : a.Fits o x) (e : x.Effort m hub (y, hub')) (t : x.Turn hub y hub')
    (hr : x.restarts y = true) : a.GivenUp o x m hub y hub' := by
  obtain ⟨plan, next⟩ : ∃ plan, y.stage = .acquiring plan .start := by
    unfold Exchange.restarts at hr
    split at hr <;> simp_all
  cases t with
  | retried stage touched like next connection keepAlive =>
    simp only [Fits, stage] at h
    obtain ⟨sent, -, hreads⟩ := h
    obtain ⟨hgets, hnothing, hfirst, hretried, hsent⟩ := e.first_of_acquiring stage next
    have reads : a.reads = [] := Decidable.byContradiction fun hne => by
      have := hreads hne
      omega
    refine ⟨hfirst, hretried, reads, hgets, ?_, ?_⟩
    · rw [sent.renew_of_sent hsent]
      exact (sent.next rfl _).proper
    · simp only [Fits, next]
      refine ⟨sent.planned, connection, ?_⟩
      constructor <;> simp [blank, Asked]
  | planned stage => simp [Exchange.restarts, stage] at hr
  | acquiring stage step next' =>
    cases next'.symm.trans next
    cases Acquisition.seeks_of_next step
  | quit touched quits => simp [quits.stage] at next
  | unacquired stage step quits => simp [quits.stage] at next
  | returned completes stage => simp [stage] at next
  | acquired stage step next' => rcases next' with h | h <;> simp [h] at next
  | parsed stage feed next' => rcases next' with h | h | ⟨piece, h⟩ <;> simp [h] at next
  | secured stage connection carries next' => simp [next'] at next
  | wrote stage writes found write next' => simp [next'] at next
  | written stage writes failure next' => simp [next'] at next
  | read stage found read next' => simp [next'] at next
  | offered stage next' => simp [next'] at next

theorem Fits.renew_of_reads (h : a.Fits o x) (hs : x.stage ≠ .finished) (hr : a.reads ≠ [])
    (e : x.Effort m hub (y, hub')) :
    a.renew x m hub y hub' = { a with reads := a.reads ++ (x.gets m hub).toList } := by
  obtain ⟨plan, r, sent, receipt⟩ : ∃ plan r, a.Sent o x plan ∧ x.receipt? = some r := by
    unfold Fits at h
    split at h
    · exact absurd (by rw [h.1]; rfl) hr
    · exact absurd h.2.2.reads hr
    · exact absurd h.2.1 hr
    · exact absurd h.2.1 hr
    · next plan r hx => exact ⟨plan, r, h.1, by simp [Exchange.receipt?, hx]⟩
    · next plan r data hx => exact ⟨plan, r, h.1, by simp [Exchange.receipt?, hx]⟩
    · next plan r data hx => exact ⟨plan, r, h.1, by simp [Exchange.receipt?, hx]⟩
    · next hx => exact absurd hx hs
  exact sent.renew_of_sent (e.sent_of_receipt receipt)

theorem Fits.same (h : a.Fits o x) (hs : y.stage = x.stage) (hc : y.connection = x.connection) :
    a.Fits o y := by
  unfold Fits at h ⊢
  rw [hs, hc]
  generalize x.stage = stage at h
  cases stage with
  | dispatched => exact h
  | acquiring plan q => exact h
  | securing plan =>
    obtain ⟨planned, reads, n, on, written⟩ := h
    exact ⟨planned, reads, n, on.next hc a.reads, written⟩
  | writing plan p =>
    obtain ⟨planned, reads, failure, n, on, written⟩ := h
    exact ⟨planned, reads, failure, n, on.next hc a.reads, written⟩
  | reading plan r => exact ⟨h.1.next hc a.reads, h.2⟩
  | parsing plan r data => exact ⟨h.1.next hc a.reads, h.2⟩
  | offering plan r data => exact ⟨h.1.next hc a.reads, h.2⟩
  | finished => exact h

end Renewals

end Attempt

/-- What ends an exchange, whichever attempt it is at. -/
inductive Exchange.Mishap (x : Exchange) (hub : Hub) : Push → Prop where
  | unacquired {quota : Nat} {plan : Plan} {a : Acquisition} {error : AcquireError} {hub₁ : Hub}
      (stage : x.stage = .acquiring plan a)
      (step : a.step plan.endpoint hub = .fail error hub₁) : Mishap x hub (.go quota)
  | unsecured {quota : Nat} {plan : Plan} {h : Handle} {n : Nat} {l : Link}
      (stage : x.stage = .securing plan) (found : x.linkOf hub = some (h, n, l))
      (new : h.session = none) (refused : l.handshake = none) : Mishap x hub (.go quota)
  | unproduced {quota : Nat} {plan : Plan} {p : Payload} {failure : Failure}
      (stage : x.stage = .writing plan p) (writes : p.writes = [])
      (broken : p.failure = some failure) : Mishap x hub (.go quota)
  | unwritten {quota : Nat} {plan : Plan} {p : Payload} {data : Bytes} {rest : List Bytes}
      {h : Handle} {n : Nat} {l : Link} {failure : IoFailure} (stage : x.stage = .writing plan p)
      (writes : p.writes = data :: rest) (found : x.linkOf hub = some (h, n, l))
      (write : l.write data = .error failure) : Mishap x hub (.go quota)
  | unread {quota : Nat} {plan : Plan} {r : Receipt} {h : Handle} {n : Nat} {l m : Link}
      {failure : IoFailure} (stage : x.stage = .reading plan r)
      (found : x.linkOf hub = some (h, n, l))
      (read : l.read quota = (some (.error failure), m)) : Mishap x hub (.go quota)
  | broken {m : Push} (broken : x.Broken m) : Mishap x hub m

theorem Exchange.faults_of_mishap {x : Exchange} {hub : Hub} {m : Push} (h : x.Mishap hub m) :
    ∃ failure, x.Faults hub m failure := by
  cases h with
  | unacquired stage step => exact ⟨_, .unacquired stage step⟩
  | unsecured stage found new refused => exact ⟨_, .unsecured stage found new refused⟩
  | unproduced stage writes broken => exact ⟨_, .unproduced stage writes broken⟩
  | unwritten stage writes found write =>
    exact ⟨_, .unwritten stage (by rw [writes, List.head?_cons]) found write⟩
  | unread stage found read => exact ⟨_, .unread stage found read⟩
  | broken broken => exact faults_of_broken broken hub

namespace Errand

theorem Still.refl (s : Errand) : s.Still s := ⟨rfl, rfl, rfl, rfl, rfl⟩

theorem Still.trans {s t u : Errand} (h : s.Still t) (h' : t.Still u) : s.Still u :=
  ⟨h'.past.trans h.past, h'.now.dialed.trans h.now.dialed,
    h'.now.acquired.trans h.now.acquired, h'.now.asked.trans h.now.asked,
    h'.now.written.trans h.now.written⟩

structure Sound (o : Exchange) (s : Errand) : Prop where
  asks : o.Asks s.exchange
  past : s.past = [] ∨ s.exchange.retried = true ∧
    ∃ a, s.past = [a] ∧ a.Proper o ∧ a.reads = [.ok []]
  now : s.now.Fits o s.exchange

/-- Something has been read, or the exchange is over. -/
def Settled (s : Errand) : Prop := s.now.reads ≠ [] ∨ s.exchange.stage = .finished

section Sound

variable {o : Exchange} {s : Errand} {m : Push} {hub : Hub} {result : Exchange × Hub}

theorem restarts_of_finished {x y : Exchange} (hy : y.stage = .finished) :
    x.restarts y = false := by
  unfold Exchange.restarts
  split <;> simp_all

theorem put_of_restarts (hr : s.exchange.restarts result.1 = false) : s.put m hub result =
    ⟨result.1, s.past, s.now.renew s.exchange m hub result.1 result.2⟩ := by
  simp [put, hr]

theorem still_of_renew (hr : s.exchange.restarts result.1 = false)
    {reads : List (Except IoFailure Bytes)}
    (h : s.now.renew s.exchange m hub result.1 result.2 = { s.now with reads := reads }) :
    s.Still (s.put m hub result) := by
  rw [put_of_restarts hr, h]
  exact ⟨rfl, rfl, rfl, rfl, rfl⟩

theorem Sound.given_up (h : s.Sound o) {a : Attempt} (ha : a ∈ s.past) :
    a.Proper o ∧ a.reads = [.ok []] := by
  rcases h.past with hp | ⟨-, b, hp, proper, reads⟩
  · simp [hp] at ha
  · rw [hp, List.mem_singleton] at ha
    exact ha ▸ ⟨proper, reads⟩

theorem Sound.past_of_first (h : s.Sound o) (hx : s.exchange.retried = false) : s.past = [] :=
  h.past.resolve_right fun hp => by simp [hx] at hp

theorem Sound.put (h : s.Sound o) (push : s.exchange.push m hub = some result) :
    (s.put m hub result).Sound o := by
  obtain ⟨asks, t⟩ := Exchange.goes_of_push push
  have e := Exchange.effort_of_push push
  cases hr : s.exchange.restarts result.1 with
  | true =>
    have up := h.now.giveUp e t hr
    simp only [Errand.put, hr, if_true]
    refine ⟨h.asks.trans asks, .inr ⟨up.retried, _, ?_, up.proper, ?_⟩, up.fits⟩
    · rw [h.past_of_first up.first]
      rfl
    · simp [Attempt.renew, up.unread, up.got]
  | false =>
    rw [put_of_restarts hr]
    refine ⟨h.asks.trans asks, ?_, h.now.renew h.asks e t hr⟩
    rw [e.retried_eq hr]
    exact h.past

theorem still_of_finished (push : s.exchange.push m hub = some result)
    (hy : result.1.stage = .finished) : s.Still (s.put m hub result) :=
  still_of_renew (restarts_of_finished hy) (Attempt.renew_of_finished
    (Exchange.effort_of_push push) (Exchange.goes_of_push push).2 hy)

theorem Sound.still_put (h : s.Sound o) (push : s.exchange.push m hub = some result)
    (settled : s.Settled) : s.Still (s.put m hub result) ∧ (s.put m hub result).Settled := by
  obtain ⟨-, t⟩ := Exchange.goes_of_push push
  have e := Exchange.effort_of_push push
  have hs := Exchange.unfinished_of_push push
  have hreads : s.now.reads ≠ [] := settled.resolve_right hs
  have hr : s.exchange.restarts result.1 = false := Bool.eq_false_iff.2 fun hr =>
    hreads (h.now.giveUp e t hr).unread
  have hrenew := h.now.renew_of_reads hs hreads e
  refine ⟨still_of_renew hr hrenew, .inl ?_⟩
  rw [put_of_restarts hr, hrenew]
  simp [hreads]

theorem Sound.closed_of_put (h : s.Sound o) (push : s.exchange.push m hub = some result)
    (hp : (s.put m hub result).past ≠ s.past) :
    s.past = [] ∧ s.now.reads = [] ∧ s.exchange.gets m hub = some (.ok []) := by
  cases hr : s.exchange.restarts result.1 with
  | true =>
    have up := h.now.giveUp (Exchange.effort_of_push push) (Exchange.goes_of_push push).2 hr
    exact ⟨h.past_of_first up.first, up.unread, up.got⟩
  | false =>
    rw [put_of_restarts hr] at hp
    exact absurd rfl hp

theorem Sound.push (h : s.Sound o) (m : Push) (hub : Hub) : (s.push m hub).Sound o := by
  unfold Errand.push
  split
  · exact h
  · next hp => exact h.put hp

theorem Sound.still_push (h : s.Sound o) (settled : s.Settled) (m : Push) (hub : Hub) :
    s.Still (s.push m hub) ∧ (s.push m hub).Settled := by
  unfold Errand.push
  split
  · exact ⟨.refl s, settled⟩
  · next hp => exact h.still_put hp settled

theorem Sound.closed_of_push (h : s.Sound o) (hp : (s.push m hub).past ≠ s.past) :
    s.past = [] ∧ s.now.reads = [] ∧ s.exchange.gets m hub = some (.ok []) := by
  unfold Errand.push at hp
  split at hp
  · exact absurd rfl hp
  · next push => exact h.closed_of_put push hp

theorem Sound.call {y : Exchange} (h : s.Sound o) (called : s.exchange.Called y)
    (retried : y.retried = s.exchange.retried) : Sound o { s with exchange := y } where
  asks := h.asks.trans called.asks
  past := by
    rw [retried]
    exact h.past
  now := h.now.same called.stage called.stays.connection

theorem Sound.apply (h : s.Sound o) (act : Act) : (s.apply act).Sound o := by
  cases act with
  | go quota hub => exact h.push _ hub
  | cancel cause hub => exact h.push _ hub
  | leave =>
    refine h.call s.exchange.called_leave ?_
    unfold Exchange.leave
    split <;> rfl
  | pull reader => exact h.call (s.exchange.called_pull reader) rfl

theorem Sound.still_apply (h : s.Sound o) (settled : s.Settled) (act : Act) :
    s.Still (s.apply act) ∧ (s.apply act).Settled := by
  cases act with
  | go quota hub => exact h.still_push settled _ hub
  | cancel cause hub => exact h.still_push settled _ hub
  | leave =>
    exact ⟨⟨rfl, rfl, rfl, rfl, rfl⟩, settled.imp_right s.exchange.called_leave.stage.trans⟩
  | pull reader =>
    exact ⟨⟨rfl, rfl, rfl, rfl, rfl⟩, settled.imp_right (s.exchange.called_pull reader).stage.trans⟩

theorem Sound.run (h : s.Sound o) (acts : List Act) : (s.run acts).Sound o := by
  induction acts generalizing s with
  | nil => exact h
  | cons act acts ih => exact ih (h.apply act)

theorem Sound.still_run (h : s.Sound o) (settled : s.Settled) (acts : List Act) :
    s.Still (s.run acts) := by
  induction acts generalizing s with
  | nil => exact .refl s
  | cons act acts ih =>
    obtain ⟨still, settled⟩ := h.still_apply settled act
    exact still.trans (ih (h.apply act) settled)

theorem sound_start (number : Nat) (request : Request) (options : ClientOptions)
    (defaults : Fields) :
    (start (.new number request options defaults)).Sound (.new number request options defaults) :=
  ⟨.refl _, .inl rfl, by simp [start, Exchange.new, Attempt.Fits]⟩

theorem Sound.closed_of_apply (h : s.Sound o) {act : Act} (hp : (s.apply act).past ≠ s.past) :
    s.past = [] ∧ s.now.reads = [] ∧ ∃ quota hub c n l, act = .go quota hub ∧
      s.exchange.linkOf hub = some (c, n, l) ∧ l.inbound = [] ∧ l.ending = some .closed := by
  -- Only a push that reads can begin another attempt.
  cases act with
  | go quota hub =>
    obtain ⟨past, unread, got⟩ := h.closed_of_push hp
    obtain ⟨_, c, n, l, hquota, found, read⟩ := Exchange.gets_eq_some got
    cases hquota
    exact ⟨past, unread, quota, hub, c, n, l, rfl, found, (l.read_nothing_iff quota).1 read⟩
  | cancel cause hub =>
    obtain ⟨-, -, got⟩ := h.closed_of_push hp
    cases got
  | leave => exact absurd rfl hp
  | pull reader => exact absurd rfl hp

end Sound

/-- The request is sent on one connection, and on a second one only if nothing at all has come
for it on the first. `o` is the exchange as it was in the beginning. -/
structure RetriesOnce (o : Exchange) (s : Errand) : Prop where
  few : s.past.length ≤ 1
  proper : ∀ a ∈ s.past ++ [s.now], a.Proper o
  unanswered : ∀ a ∈ s.past, a.Whole o ∧ a.reads = [.ok []]
  closed : ∀ act, (s.apply act).past ≠ s.past → s.past = [] ∧ s.now.reads = [] ∧
    ∃ quota hub c n l, act = .go quota hub ∧ s.exchange.linkOf hub = some (c, n, l) ∧
      l.inbound = [] ∧ l.ending = some .closed
  /-- Whatever was read, be it the end of the stream, no other connection is taken, and no more is
  written. -/
  settled : s.Settled → ∀ acts, s.Still (s.run acts)
  mishap : ∀ m hub, s.exchange.Mishap hub m → ∀ acts, s.Still ((s.push m hub).run acts)

/-- A request is sent again once at most, and only where all of it had been written and the
connection then ended without an octet. -/
theorem retries_once (number : Nat) (request : Request) (options : ClientOptions)
    (defaults : Fields) (acts : List Act) :
    ((start (.new number request options defaults)).run acts).RetriesOnce
      (.new number request options defaults) := by
  have h := (sound_start number request options defaults).run acts
  generalize (start (.new number request options defaults)).run acts = s at h
  generalize Exchange.new number request options defaults = o at h
  refine ⟨?_, fun a ha => ?_, fun a ha => ?_, fun act => h.closed_of_apply, h.still_run,
    fun m hub mishap more => ?_⟩
  · rcases h.past with hp | ⟨-, a, hp, -⟩ <;> simp [hp]
  · rcases List.mem_append.1 ha with ha | ha
    · exact (h.given_up ha).1
    · rw [List.mem_singleton] at ha
      exact ha ▸ h.now.proper
  · obtain ⟨proper, reads⟩ := h.given_up ha
    exact ⟨proper.whole (by simp [reads]), reads⟩
  · obtain ⟨failure, fault⟩ := Exchange.faults_of_mishap mishap
    obtain ⟨result, push, fails⟩ := Exchange.fails_of_faults fault
    have finished := fails.finished
    have hput : s.push m hub = s.put m hub result := by simp only [Errand.push, push]
    have hdone : (s.put m hub result).Settled := .inr (by
      rw [put_of_restarts (restarts_of_finished finished)]
      exact finished)
    rw [hput]
    exact (still_of_finished push finished).trans ((h.put push).still_run hdone more)

def Act.toExchange : Act → Exchange.Act
  | .go quota hub => .push (.go (quota + 1)) hub
  | .cancel cause hub => .push (.cancel cause) hub
  | .leave => .leave
  | .pull reader => .pull reader

theorem exchange_push (s : Errand) (m : Push) (hub : Hub) :
    (s.push m hub).exchange = s.exchange.apply (.push m hub) := by
  simp only [Errand.push, Exchange.apply]
  cases s.exchange.push m hub with
  | none => rfl
  | some result =>
    simp only [put]
    split <;> rfl

theorem exchange_apply (s : Errand) (act : Act) :
    (s.apply act).exchange = s.exchange.apply act.toExchange := by
  cases act with
  | go quota hub => exact s.exchange_push _ hub
  | cancel cause hub => exact s.exchange_push _ hub
  | leave => rfl
  | pull reader => rfl

theorem exchange_run (s : Errand) (acts : List Act) :
    (s.run acts).exchange = s.exchange.run (acts.map Act.toExchange) := by
  induction acts generalizing s with
  | nil => rfl
  | cons act acts ih =>
    have hrest := ih (s.apply act)
    rw [s.exchange_apply] at hrest
    exact hrest

theorem exists_toExchange (acts : List Exchange.Act)
    (reads : ∀ hub, .push (.go 0) hub ∉ acts) :
    ∃ own : List Act, acts = own.map Act.toExchange := by
  have hmem : ∀ act ∈ acts, act ∈ Set.range Act.toExchange := by
    rintro (⟨quota | cause, hub⟩ | _ | reader) ha
    · cases quota with
      | zero => exact absurd ha (reads hub)
      | succ quota => exact ⟨.go quota hub, rfl⟩
    · exact ⟨.cancel cause hub, rfl⟩
    · exact ⟨.leave, rfl⟩
    · exact ⟨.pull reader, rfl⟩
  obtain ⟨own, same⟩ : acts ∈ Set.range (List.map Act.toExchange) := by
    rw [Set.range_list_map]
    exact hmem
  exact ⟨own, same.symm⟩

/-- Every exchange among others is the exchange of an errand. -/
theorem exists_of_traffic {i : Nat} {x : Exchange} (proxies : Proxies) (config : PoolConfig)
    (acts : List Traffic.Act) (reads : .step i 0 ∉ acts)
    (hx : ((Traffic.new proxies config).run acts).exchange i = some x) :
    ∃ request options defaults more,
      ((start (.new i request options defaults)).run more).exchange = x := by
  obtain ⟨request, options, defaults, own, rfl, among⟩ := Traffic.exists_own proxies config hx
  obtain ⟨more, rfl⟩ := exists_toExchange own fun hub hmem => by
    obtain ⟨a, ha, same⟩ := among _ _ hmem
    cases a <;> simp [Traffic.Act.push?] at same
    exact reads (same.1 ▸ same.2 ▸ ha)
  exact ⟨request, options, defaults, more, exchange_run _ more⟩

/-- A connection that was closed meanwhile costs the first attempt. -/
def hangup : List Act :=
  let fresh : Hub := .new .none .standard
  let hub : Hub := { fresh with links := [⟨"h:80", .connected, [], some .closed, [], none⟩] }
  [.go 0 fresh, .go 0 fresh, .go 0 hub, .go 0 hub, .go 0 hub, .go 0 hub]

example : ((start (.new 0 Delivery.greeted .standard .empty)).run hangup).past.length = 1 := by
  decide +kernel

end Errand
end HttpClient
