import HttpClient.Proofs.Exchange.Efforts
import HttpClient.Proofs.Response.Draining
set_option autoImplicit false

/-!
An exchange goes on as long as it is not over, unless it has to wait for others; and by itself it
comes to its end, or to where it has to wait. There are two attempts, an attempt has its stages, and
at a stage there is so much to be done.
-/

namespace HttpClient

theorem Channel.send_eq_full_iff {data : Bytes} {c : Channel} : c.send data = .full ↔
    data ≠ [] ∧ c.receiving = true ∧ c.capacity ≤ c.queue.length := by
  simp only [send]
  grind

theorem Link.read_eq_none_iff (l : Link) (quota : Nat) :
    (l.read quota).1 = none ↔ l.isQuiet = true := by
  unfold read
  rw [isQuiet_iff]
  cases hi : l.inbound with
  | cons c rest => simp
  | nil => cases he : l.ending with
    | none => simp
    | some ending => cases ending <;> simp

theorem Parser.allowance_finish (p : Parser) : p.finish.allowance = p.allowance := by
  have hbuffer : p.finish.buffer = p.buffer := by
    unfold finish
    split <;> rfl
  rw [allowance, allowance, hbuffer, p.part_finish]

namespace Tunnel

variable {p q : Parser} {l m : Link}

theorem step_eq_wait_iff : step p l = .wait ↔ l.isQuiet = true := by
  rw [← l.read_eq_none_iff readSize]
  unfold step
  split
  · next h => simp [h]
  · next h => simp [h]
  · next h => simp [h]
  · next h => split <;> simp [h]

theorem length_of_next (h : step p l = .next q m) : m.inbound.length < l.inbound.length := by
  obtain ⟨data, rest, hsome, hinbound, rfl, -⟩ := taken_of_step (some q) h
  have hpos := List.length_pos_iff.2 hsome
  simp only [hinbound, List.length_append]
  omega

end Tunnel

namespace Acquisition

/-- The far end has neither taken nor refused the connection, or it is silent about the tunnel. -/
inductive Waits (hub : Hub) : Acquisition → Prop where
  | dialing {n : Nat} {l : Link} (link : hub.links[n]? = some l) (pending : l.dial = .pending) :
      Waits hub (.dialing n)
  | tunnelling {h : Handle} {p : Parser} {n : Nat} {l : Link} (link : hub.linkOf h = some (n, l))
      (quiet : l.isQuiet = true) : Waits hub (.tunnelling h p)

theorem connect_ne_wait (e : Endpoint) (n : Nat) (l : Link) (hub : Hub) :
    connect e n l hub ≠ .wait := by
  unfold connect
  dsimp only
  split
  · simp
  · split <;> simp

theorem step_eq_wait_iff {e : Endpoint} {a : Acquisition} {hub : Hub}
    (dialed : ∀ n, a = .dialing n → n < hub.links.length) :
    a.step e hub = .wait ↔ a.Waits hub := by
  cases a with
  | start =>
    have hne : begin e hub ≠ .wait := by
      unfold begin
      split <;> simp
    exact ⟨fun h => absurd h hne, fun h => by cases h⟩
  | dialing n =>
    obtain ⟨l, hl⟩ : ∃ l, hub.links[n]? = some l :=
      ⟨_, List.getElem?_eq_getElem (dialed n rfl)⟩
    have hwaits : (dialing n).Waits hub ↔ l.dial = .pending := by
      refine ⟨fun h => ?_, .dialing hl⟩
      cases h with
      | dialing link pending =>
        cases hl.symm.trans link
        exact pending
    rw [hwaits]
    simp only [step, hl]
    cases hd : l.dial with
    | pending => simp
    | refused failure => simp
    | connected => simpa using connect_ne_wait e n l hub
  | tunnelling h p =>
    cases hl : hub.linkOf h with
    | none =>
      refine ⟨fun hw => by simp [step, hl] at hw, fun hw => ?_⟩
      cases hw with
      | tunnelling link quiet => simp [hl] at link
    | some found =>
      obtain ⟨n, l⟩ := found
      have hwaits : (tunnelling h p).Waits hub ↔ l.isQuiet = true := by
        refine ⟨fun hw => ?_, .tunnelling hl⟩
        cases hw with
        | tunnelling link quiet =>
          cases hl.symm.trans link
          exact quiet
      rw [hwaits, ← Tunnel.step_eq_wait_iff (p := p)]
      simp only [step, hl]
      split <;> simp [*]

end Acquisition

namespace Exchange

/-- What an exchange has to wait for: the far end, or the reader of the body. -/
inductive Waits (x : Exchange) (hub : Hub) : Prop where
  | acquiring {plan : Plan} {a : Acquisition} (stage : x.stage = .acquiring plan a)
      (waits : a.Waits hub)
  | reading {plan : Plan} {r : Receipt} {h : Handle} {n : Nat} {l : Link}
      (stage : x.stage = .reading plan r) (found : x.linkOf hub = some (h, n, l))
      (quiet : l.isQuiet = true)
  | offering {plan : Plan} {r : Receipt} {data : Bytes} (stage : x.stage = .offering plan r data)
      (some : data ≠ []) (receiving : x.channel.receiving = true)
      (full : x.channel.capacity ≤ x.channel.queue.length)

section Waiting

variable {x : Exchange} {hub : Hub} {quota : Nat} {plan : Plan}

theorem acquire_eq_none_iff {a : Acquisition} :
    x.acquire plan a hub = none ↔ a.step plan.endpoint hub = .wait := by
  unfold acquire
  split <;> simp [*]

theorem read_eq_none_iff {r : Receipt} : x.read quota plan r hub = none ↔
    ∃ h n l, x.linkOf hub = some (h, n, l) ∧ l.isQuiet = true := by
  unfold read
  cases hl : x.linkOf hub with
  | none => simp
  | some found =>
    obtain ⟨h, n, l⟩ := found
    have hread := l.read_eq_none_iff quota
    rcases hr : l.read quota with ⟨_ | failure | data, m⟩ <;> simp [hr] at hread ⊢ <;> simp [hread]

theorem offer_eq_none_iff {r : Receipt} {data : Bytes} :
    x.offer plan r data hub = none ↔ x.channel.send data = .full := by
  unfold offer
  split <;> simp [*]

/-- An exchange that is not over goes on, unless it waits. -/
theorem step_eq_none_iff
    (dialed : ∀ plan n, x.stage = .acquiring plan (.dialing n) → n < hub.links.length) :
    x.step quota hub = none ↔ x.stage = .finished ∨ x.Waits hub := by
  constructor
  · intro h
    unfold step at h
    split at h
    · cases h
    · next plan a hs =>
      rw [acquire_eq_none_iff] at h
      have hd : ∀ n, a = .dialing n → n < hub.links.length := fun n ha => dialed plan n (ha ▸ hs)
      exact .inr (.acquiring hs ((Acquisition.step_eq_wait_iff hd).1 h))
    · cases h
    · cases h
    · next hs =>
      obtain ⟨c, n, l, found, quiet⟩ := read_eq_none_iff.1 h
      exact .inr (.reading hs found quiet)
    · cases h
    · next hs =>
      obtain ⟨some, receiving, full⟩ := Channel.send_eq_full_iff.1 (offer_eq_none_iff.1 h)
      exact .inr (.offering hs some receiving full)
    · next hs => exact .inl hs
  · rintro (hs | waits)
    · simp [step, hs]
    cases waits with
    | @acquiring plan a stage waits =>
      have hd : ∀ n, a = .dialing n → n < hub.links.length :=
        fun n ha => dialed plan n (ha ▸ stage)
      simpa [step, stage, acquire_eq_none_iff] using (Acquisition.step_eq_wait_iff hd).2 waits
    | reading stage found quiet =>
      simpa [step, stage] using read_eq_none_iff.2 ⟨_, _, _, found, quiet⟩
    | offering stage some receiving full =>
      simpa [step, stage, offer_eq_none_iff] using
        Channel.send_eq_full_iff.2 ⟨some, receiving, full⟩

end Waiting

/-- The stages that are left of an attempt. The end of the stream counts as one. -/
def rank (x : Exchange) : Nat :=
  match x.stage with
  | .dispatched => 8
  | .acquiring _ .start => 7
  | .acquiring _ (.dialing _) => 6
  | .acquiring _ (.tunnelling ..) => 5
  | .securing _ => 4
  | .writing .. => 3
  | .reading _ r | .parsing _ r _ | .offering _ r _ => if r.ended then 1 else 2
  | .finished => 0

def unread (x : Exchange) (hub : Hub) : Nat :=
  (x.linkOf hub).elim 0 fun (_, _, l) => l.inbound.length

/-- What is left to do at a stage. Octets weigh most before they are read, less while they wait for
the parser or in its buffer, and nothing when they have been reported. -/
def load (x : Exchange) (hub : Hub) : Nat :=
  match x.stage with
  | .acquiring _ (.tunnelling h _) => (hub.linkOf h).elim 0 fun (_, l) => l.inbound.length
  | .writing _ p => p.writes.length
  | .reading _ r => 4 * x.unread hub + 2 * r.parser.allowance + if r.ended then 3 else 0
  | .parsing _ r data => 4 * x.unread hub + 2 * (r.parser.allowance + data.length) + 1
  | .offering _ r _ => 4 * x.unread hub + 2 * r.parser.allowance + 2
  | _ => 0

def distance (x : Exchange) (hub : Hub) : Nat × Nat × Nat :=
  (if x.retried then 0 else 1, x.rank, x.load hub)

def Nearer (x : Exchange) (hub : Hub) (y : Exchange) (hub' : Hub) : Prop :=
  Prod.Lex (· < ·) (Prod.Lex (· < ·) (· < ·)) (y.distance hub') (x.distance hub)

section Nearer

variable {x y : Exchange} {hub hub' : Hub} {plan : Plan}

theorem nearer_of_retried (hx : x.retried = false) (hy : y.retried = true) :
    x.Nearer hub y hub' := by
  unfold Nearer distance
  rw [hx, hy]
  exact .left _ _ Nat.zero_lt_one

theorem nearer_of_rank (hr : y.retried = x.retried) (h : y.rank < x.rank) :
    x.Nearer hub y hub' := by
  unfold Nearer distance
  rw [hr]
  exact .right _ (.left _ _ h)

theorem nearer_of_load (hr : y.retried = x.retried) (hk : y.rank = x.rank)
    (h : y.load hub' < x.load hub) : x.Nearer hub y hub' := by
  unfold Nearer distance
  rw [hr, hk]
  exact .right _ (.right _ h)

theorem nearer_of_finished (hr : y.retried = x.retried) (hx : x.stage ≠ .finished)
    (hy : y.stage = .finished) : x.Nearer hub y hub' := by
  refine nearer_of_rank hr ?_
  have hzero : y.rank = 0 := by simp only [rank, hy]
  rw [hzero]
  unfold rank
  split <;> first | exact absurd ‹_› hx | (split <;> omega) | omega

theorem nearer_of_next {a b : Acquisition} (hr : y.retried = x.retried)
    (hx : x.stage = .acquiring plan a) (hy : y.stage = .acquiring plan b)
    (step : a.step plan.endpoint hub = .next b hub') : x.Nearer hub y hub' := by
  have hc := Acquisition.course plan.endpoint hub a
  rw [step] at hc
  cases hc with
  | dial links => exact nearer_of_rank hr (by simp [rank, hx, hy])
  | ask link proxied asked links => exact nearer_of_rank hr (by simp [rank, hx, hy])
  | @next h p q n l m link asked =>
    obtain ⟨hwire, hl⟩ := Hub.linkOf_eq_some_iff.1 link
    have hlt : n < hub.links.length := (List.getElem?_eq_some_iff.1 hl).1
    have hset : (hub.setLink n m).linkOf h = some (n, m) :=
      Hub.linkOf_eq_some_iff.2 ⟨hwire, List.getElem?_set_self hlt⟩
    refine nearer_of_load hr (by simp [rank, hx, hy]) ?_
    simpa [load, hx, hy, link, hset] using Tunnel.length_of_next asked

theorem nearer_of_read {r r' : Receipt} {quota n : Nat} {data : Bytes} {h : Handle} {l m : Link}
    (hr : y.retried = x.retried) (hx : x.stage = .reading plan r)
    (hy : y.stage = .parsing plan r' data) (found : x.linkOf hub = some (h, n, l))
    (read : l.read quota = (some (.ok data), m)) (hc : y.connection = x.connection)
    (receipt : r'.ended = true ∧ r'.parser = r.parser.finish ∧ data = [] ∨
      r'.ended = r.ended ∧ r'.parser = r.parser ∧ data ≠ []) :
    x.Nearer hub y (hub.setLink n m) := by
  have hxn : x.unread hub = l.inbound.length := by rw [unread, found]; rfl
  have hyn : y.unread (hub.setLink n m) = m.inbound.length := by
    rw [unread, linkOf_setLink found hc m]
    rfl
  have hlength := congrArg List.length (Link.inbound_of_read read)
  rw [List.length_append] at hlength
  rcases receipt with ⟨ended, parser, rfl⟩ | ⟨ended, parser, hdata⟩
  · cases he : r.ended with
    | false => exact nearer_of_rank hr (by simp [rank, hx, hy, he, ended])
    | true =>
      refine nearer_of_load hr (by simp [rank, hx, hy, he, ended]) ?_
      simp only [load, hx, hy, hxn, hyn, parser, Parser.allowance_finish, he, if_true]
      simp only [List.length_nil] at hlength ⊢
      omega
  · refine nearer_of_load hr (by simp [rank, hx, hy, ended]) ?_
    have hpos := List.length_pos_iff.2 hdata
    simp only [load, hx, hy, hxn, hyn, parser]
    omega

theorem nearer_of_parsed {r : Receipt} {data : Bytes} {e : Option Event} {q : Parser}
    (hr : y.retried = x.retried) (hx : x.stage = .parsing plan r data)
    (feed : r.parser.feed data = (.ok e, q)) (next : y.Receives plan { r with parser := q })
    (silent : y.stage = .reading plan { r with parser := q } ↔ e = none)
    (going : y.stage = .reading plan { r with parser := q } → r.ended = false)
    (hc : y.connection = x.connection) : x.Nearer hub y hub := by
  have hunread : y.unread hub = x.unread hub := by rw [unread, unread, linkOf_of_connection hc]
  have hle := Parser.allowance_of_feed feed
  have hsome (hs : y.stage ≠ .reading plan { r with parser := q }) : e.toList.length = 1 := by
    obtain ⟨event, rfl⟩ := Option.ne_none_iff_exists'.1 fun hn => hs (silent.2 hn)
    rfl
  rcases next with hy | hy | ⟨piece, hy⟩
  · refine nearer_of_load hr (by simp [rank, hx, hy]) ?_
    simp only [load, hx, hy, hunread, going hy]
    simp only [Bool.false_eq_true, if_false]
    omega
  · have hone := hsome (by simp [hy])
    refine nearer_of_load hr (by simp [rank, hx, hy]) ?_
    simp only [load, hx, hy, hunread, List.length_nil]
    omega
  · have hone := hsome (by simp [hy])
    refine nearer_of_load hr (by simp [rank, hx, hy]) ?_
    simp only [load, hx, hy, hunread]
    omega

theorem Turn.nearer {m : Push} (t : x.Turn hub y hub') (e : x.Effort m hub (y, hub'))
    (hx : x.stage ≠ .finished) : x.Nearer hub y hub' := by
  rcases e.retried_cases with hr | ⟨hfirst, hretried⟩
  swap
  · exact nearer_of_retried hfirst hretried
  cases t with
  | quit touched quits => exact nearer_of_finished hr hx quits.stage
  | unacquired stage step quits => exact nearer_of_finished hr hx quits.stage
  | returned completes stage => exact nearer_of_finished hr hx stage
  | planned stage made next => exact nearer_of_rank hr (by simp [rank, stage, next])
  | acquiring stage step next => exact nearer_of_next hr stage next step
  | @acquired plan a h stage step next =>
    refine nearer_of_rank hr ?_
    rcases next with next | next <;> cases a <;> simp [rank, stage, next]
  | secured stage connection carries next => exact nearer_of_rank hr (by simp [rank, stage, next])
  | wrote stage writes found write next =>
    exact nearer_of_load hr (by simp [rank, stage, next]) (by simp [load, stage, next, writes])
  | written stage writes failure next => exact nearer_of_rank hr (by simp [rank, stage, next])
  | read stage found read next receipt stays same =>
    rw [same]
    exact nearer_of_read hr stage next found read stays.connection receipt
  | retried stage touched like next =>
    obtain ⟨-, -, hfirst, hretried, -⟩ := e.first_of_acquiring stage next
    rw [hfirst, hretried] at hr
    cases hr
  | parsed stage feed next connection keepAlive same silent =>
    rw [same]
    refine nearer_of_parsed hr stage feed next silent (fun hy => ?_) connection
    have going := e.not_ended hy
    exact going
  | offered stage next stays same =>
    have hunread : y.unread hub = x.unread hub := by
      rw [unread, unread, linkOf_of_connection stays.connection]
    refine nearer_of_load hr (by simp [rank, stage, next]) ?_
    simp [load, stage, next, same, hunread]

theorem nearer_of_step {quota : Nat} {result : Exchange × Hub}
    (h : x.step quota hub = some result) : x.Nearer hub result.1 result.2 :=
  (goes_of_step h).2.nearer (effort_of_push (m := .go quota) h)
    (unfinished_of_push (m := .go quota) h)

end Nearer

end Exchange
end HttpClient
