import HttpClient.Proofs.Exchange.Courses
import HttpClient.Proofs.Pool.Accounts
set_option autoImplicit false

/-!
What a push means to the attempts at a request: `Effort` says what can have been written, what was
read, and when another attempt begins.
-/

namespace HttpClient

namespace Hub

def sent (hub : Hub) : List Bytes := hub.links.map (·.outbound)

def added (hub hub' : Hub) (n : Nat) : Bytes :=
  (hub'.sent.getD n []).drop (hub.sent.getD n []).length

variable {hub hub' : Hub}

theorem added_of_sent (h : hub'.sent = hub.sent) (n : Nat) : hub.added hub' n = [] := by
  rw [added, h, List.drop_length]

theorem added_of_dial (h : hub'.sent = hub.sent ++ [[]]) (n : Nat) : hub.added hub' n = [] := by
  have hget : hub'.sent.getD n [] = hub.sent.getD n [] := by
    rw [h, List.getD_eq_getElem?_getD, List.getD_eq_getElem?_getD]
    rcases Nat.lt_trichotomy n hub.sent.length with hn | rfl | hn
    · rw [List.getElem?_append_left hn]
    · simp
    · rw [List.getElem?_eq_none (by simp; omega), List.getElem?_eq_none (Nat.le_of_lt hn)]
  rw [added, hget, List.drop_length]

theorem length_of_sent (h : hub'.sent = hub.sent) : hub'.links.length = hub.links.length := by
  simpa [sent] using congrArg List.length h

theorem sent_setLink {n : Nat} {l m : Link} (hl : hub.links[n]? = some l)
    (ho : m.outbound = l.outbound) : (hub.setLink n m).sent = hub.sent := by
  refine List.ext_getElem? fun k => ?_
  by_cases hk : n = k
  · subst hk
    obtain ⟨hlt, rfl⟩ := List.getElem?_eq_some_iff.1 hl
    simp [sent, setLink, hlt, ho]
  · simp [sent, setLink, List.getElem?_set_ne hk]

theorem added_setLink {n : Nat} {l m : Link} {data : Bytes} (hl : hub.links[n]? = some l)
    (ho : m.outbound = l.outbound ++ data) (k : Nat) :
    hub.added (hub.setLink n m) k = if k = n then data else [] := by
  by_cases hk : k = n
  · subst hk
    obtain ⟨hlt, rfl⟩ := List.getElem?_eq_some_iff.1 hl
    simp [added, sent, setLink, List.getD_eq_getElem?_getD, hlt, ho]
  · simp [added, sent, setLink, List.getD_eq_getElem?_getD, List.getElem?_set_ne (Ne.symm hk), hk]

end Hub

def Tunnel.Move.link? : Tunnel.Move → Option Link
  | .wait => none
  | .next _ l | .done l | .fail _ l => some l

theorem Tunnel.outbound_of_step {p : Parser} {l m : Link} (h : (step p l).link? = some m) :
    m.outbound = l.outbound := by
  rcases step_cases p l with hs | ⟨ending, hs⟩ | ⟨data, rest, -, -, hs⟩
  · rw [hs] at h
    cases h
  · rw [hs] at h
    cases h
    rfl
  · rw [hs] at h
    rcases hq : accept p data with error | _ | q <;> rw [hq] at h <;> cases h <;> rfl

namespace Acquisition

variable {e : Endpoint} {a b : Acquisition} {hub hub' : Hub}

/-- What is dialed and written until a connection is there. -/
inductive Seeks (e : Endpoint) (hub : Hub) : Acquisition → Acquisition → Hub → Prop where
  | dials {n : Nat} {hub' : Hub} (sent : hub'.sent = hub.sent ++ [[]]) :
      Seeks e hub .start (.dialing n) hub'
  | asks {n : Nat} {h : Handle} {p : Parser} {hub' : Hub}
      (length : hub'.links.length = hub.links.length)
      (asked : ∀ k, hub.added hub' k ≠ [] →
        RequestHead.encodeConnect e.authority = .ok (hub.added hub' k)) :
      Seeks e hub (.dialing n) (.tunnelling h p) hub'
  | hears {h h' : Handle} {p q : Parser} {hub' : Hub} (sent : hub'.sent = hub.sent) :
      Seeks e hub (.tunnelling h p) (.tunnelling h' q) hub'

theorem sent_of_tunnelling {h : Handle} {p : Parser}
    (hs : ((tunnelling h p).step e hub).hub? = some hub') : hub'.sent = hub.sent := by
  simp only [step] at hs
  cases hl : hub.linkOf h with
  | none =>
    simp only [hl] at hs
    cases hs
    rfl
  | some found =>
    obtain ⟨n, l⟩ := found
    have hlink := (Hub.linkOf_eq_some_iff.1 hl).2
    simp only [hl] at hs
    split at hs <;> cases hs
    · next hm => exact Hub.sent_setLink hlink (Tunnel.outbound_of_step (by rw [hm]; rfl))
    · next hm => exact Hub.sent_setLink hlink (Tunnel.outbound_of_step (by rw [hm]; rfl))
    · next hm => exact Hub.sent_setLink hlink (Tunnel.outbound_of_step (by rw [hm]; rfl))

theorem seeks_of_next (h : a.step e hub = .next b hub') : Seeks e hub a b hub' := by
  have hc := course e hub a
  rw [h] at hc
  cases hc with
  | dial links => exact .dials (by simp [Hub.sent, links, Link.dialed])
  | @ask n proxy l m hub₁ link proxied asked links =>
    obtain ⟨data, hdata, hm⟩ := Tunnel.ask_eq_ok asked
    refine .asks (by simp [links]) fun k hk => ?_
    have hout : m.outbound = l.outbound ++ data := by rw [hm]
    have hadded := Hub.added_setLink link hout k
    have hsame : hub.added hub' k = hub.added (hub.setLink n m) k := by
      simp only [Hub.added, Hub.sent, links, Hub.setLink]
    rw [hsame, hadded] at hk ⊢
    split at hk
    · next hkn => simpa [hkn] using hdata
    · exact absurd rfl hk
  | next link step => exact .hears (sent_of_tunnelling (by rw [h]; rfl))

theorem sent_of_done {c : Handle} (h : a.step e hub = .done c hub') : hub'.sent = hub.sent := by
  have hc := course e hub a
  rw [h] at hc
  cases hc with
  | reuse stored links => rw [Hub.sent, links, Hub.sent]
  | direct proxy links => rw [Hub.sent, links, Hub.sent]
  | agreed link step links => exact sent_of_tunnelling (by rw [h]; rfl)

theorem sent_of_fail {error : AcquireError} (h : a.step e hub = .fail error hub') :
    hub'.sent = hub.sent := by
  have hc := course e hub a
  rw [h] at hc
  cases hc with
  | refused => rfl
  | unasked idle next links => rw [Hub.sent, links, Hub.sent]
  | failed pool links => exact sent_of_tunnelling (by rw [h]; rfl)

end Acquisition

namespace Exchange

def gets (x : Exchange) (m : Push) (hub : Hub) : Option (Except IoFailure Bytes) :=
  match m, x.stage, x.linkOf hub with
  | .go quota, .reading _ _, some (_, _, l) => (l.read quota).1
  | _, _, _ => none

/-- A connection is looked for from the start, though the exchange is not new. -/
def restarts (x y : Exchange) : Bool :=
  match x.stage, y.stage with
  | .dispatched, _ => false
  | _, .acquiring _ .start => true
  | _, _ => false

/-- Nothing is written, and no attempt is counted. -/
structure Rests (x : Exchange) (hub : Hub) (result : Exchange × Hub) : Prop where
  sent : result.2.sent = hub.sent
  retried : result.1.retried = x.retried

/-- What a push means to the attempts. -/
inductive Effort (x : Exchange) (m : Push) (hub : Hub) (result : Exchange × Hub) : Prop where
  | rests (rests : x.Rests hub result)
      (fails : ∀ plan r, x.stage = .reading plan r → result.1.stage = .finished)
      (resumes : ∀ plan r, result.1.stage = .reading plan r → r.ended = false)
  | acquires {plan : Plan} {a : Acquisition} (stage : x.stage = .acquiring plan a)
      (retried : result.1.retried = x.retried) (unread : result.1.receipt? = none)
      (unfinished : result.1.stage ≠ .finished)
  | writes {plan : Plan} {p q : Payload} (stage : x.stage = .writing plan p)
      (next : result.1.stage = .writing plan q) (retried : result.1.retried = x.retried)
  | hears {plan : Plan} {r r' : Receipt} {data : Bytes} (stage : x.stage = .reading plan r)
      (got : x.gets m hub = some (.ok data)) (next : result.1.stage = .parsing plan r' data)
      (heard : r'.ended = true ∨ 0 < r'.total) (rests : x.Rests hub result)
  | retries {plan : Plan} {r : Receipt} (stage : x.stage = .reading plan r)
      (got : x.gets m hub = some (.ok [])) (nothing : r.total = 0) (first : x.retried = false)
      (next : result.1.stage = .acquiring plan .start) (sent : result.2.sent = hub.sent)
      (retried : result.1.retried = true)

section Efforts

variable {x y : Exchange} {m : Push} {hub hub₁ : Hub} {quota : Nat} {plan : Plan} {r : Receipt}

theorem sent_discardConnection (x : Exchange) (hub : Hub) :
    (x.discardConnection hub).2.sent = hub.sent := by
  unfold discardConnection
  split <;> rfl

theorem rests_fail (hy : y.retried = x.retried) (hs : hub₁.sent = hub.sent) (failure : Failure) :
    x.Rests hub (y.fail failure hub₁) where
  sent := (sent_discardConnection _ _).trans hs
  retried := by simpa only [fail, discardConnection_fst] using hy

theorem rests_abandon (hy : y.retried = x.retried) : x.Rests hub (y.abandon hub) where
  sent := sent_discardConnection _ _
  retried := by simpa only [abandon, discardConnection_fst] using hy

theorem effort_of_finished {result : Exchange × Hub} (rests : x.Rests hub result)
    (h : result.1.stage = .finished) : x.Effort m hub result :=
  .rests rests (fun _ _ _ => h) (by simp [h])

theorem effort_fail (hy : y.retried = x.retried) (hs : hub₁.sent = hub.sent) (failure : Failure) :
    x.Effort m hub (y.fail failure hub₁) :=
  effort_of_finished (rests_fail hy hs failure) (quits_fail y failure hub₁).stage

theorem effort_on (hs : ∀ plan r, x.stage ≠ .reading plan r) (hy : y.retried = x.retried)
    (resumes : ∀ plan r, y.stage = .reading plan r → r.ended = false) :
    x.Effort m hub (y, hub) :=
  .rests ⟨rfl, hy⟩ (fun plan r h => absurd h (hs plan r)) resumes

theorem effort_begin (hs : x.stage = .dispatched) : x.Effort m hub (x.begin hub) := by
  unfold begin
  split
  · exact effort_fail rfl rfl _
  · exact effort_on (by simp [hs]) rfl (by simp)

theorem effort_acquire {a : Acquisition} {result : Exchange × Hub}
    (hs : x.stage = .acquiring plan a) (h : x.acquire plan a hub = some result) :
    x.Effort m hub result := by
  unfold acquire at h
  split at h
  · cases h
  · cases h
    exact .acquires hs rfl rfl (by simp)
  · next hm =>
    cases h
    exact effort_fail rfl (Acquisition.sent_of_fail hm) _
  · cases h
    split
    · exact .acquires hs rfl rfl (by simp)
    · exact .acquires hs rfl rfl (by simp [startWriting])

theorem effort_secure (hs : x.stage = .securing plan) : x.Effort m hub (x.secure plan hub) := by
  have hr : ∀ plan r, x.stage ≠ .reading plan r := by simp [hs]
  unfold secure
  split
  · exact effort_fail rfl rfl _
  · dsimp only
    split
    · exact effort_on hr rfl (by simp [startWriting])
    · split
      · split
        · exact effort_on hr rfl (by simp [startWriting])
        · refine effort_fail ?_ rfl _
          rfl
      · refine effort_fail ?_ rfl _
        rfl

theorem effort_write {p : Payload} (hs : x.stage = .writing plan p) :
    x.Effort m hub (x.write plan p hub) := by
  unfold write
  split
  · exact effort_fail rfl rfl _
  · refine effort_on (by simp [hs]) rfl fun plan r h => ?_
    cases h
    rfl
  · split
    · exact effort_fail rfl rfl _
    · split
      · exact effort_fail rfl rfl _
      · exact .writes hs rfl rfl

theorem effort_read {result : Exchange × Hub} (hs : x.stage = .reading plan r)
    (h : x.read quota plan r hub = some result) : x.Effort (.go quota) hub result := by
  unfold read at h
  cases hl : x.linkOf hub with
  | none =>
    simp only [hl, Option.some.injEq] at h
    subst h
    exact effort_fail rfl rfl _
  | some found =>
    obtain ⟨c, n, l⟩ := found
    have hlink := (Hub.linkOf_eq_some_iff.1 (linkOf_eq_some hl).2).2
    have hgets : x.gets (.go quota) hub = (l.read quota).1 := by simp only [gets, hs, hl]
    simp only [hl] at h
    rcases hr : l.read quota with ⟨_ | failure | data, m⟩
    · simp [hr] at h
    · simp only [hr, Option.some.injEq] at h
      subst h
      exact effort_fail rfl (Hub.sent_setLink hlink (Link.outbound_of_read hr)) _
    · simp only [hr, Option.some.injEq] at h
      have hsent := Hub.sent_setLink hlink (Link.outbound_of_read hr)
      rw [hr] at hgets
      subst h
      unfold receive
      split
      · next he =>
        obtain rfl : data = [] := List.isEmpty_iff.1 he
        split
        · next hretry =>
          refine .retries hs hgets hretry.2.1 (by simpa using hretry.2.2) ?_ ?_ ?_
          · simp only [retry, discardConnection_fst]
          · exact (sent_discardConnection _ _).trans hsent
          · simp only [retry, discardConnection_fst]
        · exact .hears hs hgets rfl (.inl rfl) ⟨hsent, rfl⟩
      · next he =>
        have hpos : 0 < data.length := List.length_pos_iff.2 fun hd => he (by simp [hd])
        exact .hears hs hgets rfl (.inr (by simp only; omega)) ⟨hsent, rfl⟩

theorem effort_parse {data : Bytes} (hs : x.stage = .parsing plan r data) :
    x.Effort m hub (x.parse plan r data hub) := by
  have hr : ∀ plan r, x.stage ≠ .reading plan r := by simp [hs]
  unfold parse
  dsimp only
  split
  · exact effort_fail rfl rfl _
  · split
    · exact effort_fail rfl rfl _
    · next he =>
      refine effort_on hr rfl fun plan r h => ?_
      cases h
      simpa using he
  · unfold answer
    dsimp only
    split
    · refine effort_fail ?_ rfl _
      rfl
    · split
      · exact effort_on hr rfl (by simp)
      · exact effort_of_finished (rests_abandon rfl) (quits_abandon _ hub).stage
  · unfold takeChunk
    split
    · exact effort_fail rfl rfl _
    · split <;> exact effort_on hr rfl (by simp)
  · unfold complete
    dsimp only
    split
    · exact effort_of_finished ⟨rfl, rfl⟩ rfl
    · refine effort_of_finished ⟨?_, rfl⟩ rfl
      split <;> rfl

theorem effort_offer {data : Bytes} {result : Exchange × Hub}
    (hs : x.stage = .offering plan r data) (h : x.offer plan r data hub = some result) :
    x.Effort m hub result := by
  unfold offer at h
  split at h
  · cases h
  · cases h
    exact effort_of_finished (rests_abandon rfl) (quits_abandon x hub).stage
  · cases h
    exact effort_on (by simp [hs]) rfl (by simp)

theorem effort_of_push {result : Exchange × Hub} (h : x.push m hub = some result) :
    x.Effort m hub result := by
  cases m with
  | cancel cause =>
    simp only [push] at h
    split at h
    · cases h
    · next hf =>
      cases h
      simp only [cancel, hf]
      exact effort_fail rfl rfl _
  | go quota =>
    simp only [push, step] at h
    cases hs : x.stage with
    | dispatched =>
      simp only [hs, Option.some.injEq] at h
      exact h ▸ effort_begin hs
    | acquiring plan a =>
      simp only [hs] at h
      exact effort_acquire hs h
    | securing plan =>
      simp only [hs, Option.some.injEq] at h
      exact h ▸ effort_secure hs
    | writing plan p =>
      simp only [hs, Option.some.injEq] at h
      exact h ▸ effort_write hs
    | reading plan r =>
      simp only [hs] at h
      exact effort_read hs h
    | parsing plan r data =>
      simp only [hs, Option.some.injEq] at h
      exact h ▸ effort_parse hs
    | offering plan r data =>
      simp only [hs] at h
      exact effort_offer hs h
    | finished => simp [hs] at h

namespace Effort

variable {result : Exchange × Hub}

theorem sent_of_finished (e : x.Effort m hub result) (hy : result.1.stage = .finished) :
    result.2.sent = hub.sent := by
  cases e with
  | rests rests => exact rests.sent
  | acquires stage retried unread unfinished => exact absurd hy unfinished
  | writes stage next => simp [next] at hy
  | hears stage got next heard rests => exact rests.sent
  | retries stage got nothing first next sent => exact sent

theorem sent_of_receipt (e : x.Effort m hub result) (hr : x.receipt? = some r) :
    result.2.sent = hub.sent := by
  cases e with
  | rests rests => exact rests.sent
  | acquires stage => simp [receipt?, stage] at hr
  | writes stage => simp [receipt?, stage] at hr
  | hears stage got next heard rests => exact rests.sent
  | retries stage got nothing first next sent => exact sent

theorem retried_eq (e : x.Effort m hub result) (hr : x.restarts result.1 = false) :
    result.1.retried = x.retried := by
  cases e with
  | rests rests => exact rests.retried
  | acquires stage retried => exact retried
  | writes stage next retried => exact retried
  | hears stage got next heard rests => exact rests.retried
  | retries stage got nothing first next => simp [restarts, stage, next] at hr

theorem retried_cases (e : x.Effort m hub result) :
    result.1.retried = x.retried ∨ x.retried = false ∧ result.1.retried = true := by
  cases e with
  | rests rests => exact .inl rests.retried
  | acquires stage retried => exact .inl retried
  | writes stage next retried => exact .inl retried
  | hears stage got next heard rests => exact .inl rests.retried
  | retries stage got nothing first next sent retried => exact .inr ⟨first, retried⟩

theorem heard_of_parsing {plan' : Plan} {r' : Receipt} {data : Bytes} (e : x.Effort m hub result)
    (hs : x.stage = .reading plan r) (hy : result.1.stage = .parsing plan' r' data) :
    x.gets m hub = some (.ok data) ∧ (r'.ended = true ∨ 0 < r'.total) ∧
      result.2.sent = hub.sent := by
  cases e with
  | rests rests fails => simp [fails _ _ hs] at hy
  | acquires stage => simp [stage] at hs
  | writes stage => simp [stage] at hs
  | hears stage got next heard rests =>
    cases next.symm.trans hy
    exact ⟨got, heard, rests.sent⟩
  | retries stage got nothing first next => simp [next] at hy

theorem first_of_acquiring {plan' : Plan} {a : Acquisition} (e : x.Effort m hub result)
    (hs : x.stage = .reading plan r) (hy : result.1.stage = .acquiring plan' a) :
    x.gets m hub = some (.ok []) ∧ r.total = 0 ∧ x.retried = false ∧ result.1.retried = true ∧
      result.2.sent = hub.sent := by
  cases e with
  | rests rests fails => simp [fails _ _ hs] at hy
  | acquires stage => simp [stage] at hs
  | writes stage => simp [stage] at hs
  | hears stage got next => simp [next] at hy
  | retries stage got nothing first next sent retried =>
    cases stage.symm.trans hs
    exact ⟨got, nothing, first, retried, sent⟩

theorem not_ended (e : x.Effort m hub result) (hy : result.1.stage = .reading plan r) :
    r.ended = false := by
  cases e with
  | rests rests fails resumes => exact resumes _ _ hy
  | acquires stage retried unread => simp [receipt?, hy] at unread
  | writes stage next => simp [next] at hy
  | hears stage got next => simp [next] at hy
  | retries stage got nothing first next => simp [next] at hy

end Effort

end Efforts

theorem gets_of_unconnected {x : Exchange} (hx : x.connection = none) (m : Push) (hub : Hub) :
    x.gets m hub = none := by
  unfold gets
  split
  · next hl => simp [linkOf, hx] at hl
  · rfl

theorem gets_of_stage {x : Exchange} (hs : ∀ plan r, x.stage ≠ .reading plan r) (m : Push)
    (hub : Hub) : x.gets m hub = none := by
  unfold gets
  split
  · next h _ => exact absurd h (hs _ _)
  · rfl

theorem gets_eq_some {x : Exchange} {m : Push} {hub : Hub} {result : Except IoFailure Bytes}
    (h : x.gets m hub = some result) : ∃ quota c n l, m = .go quota ∧
      x.linkOf hub = some (c, n, l) ∧ (l.read quota).1 = some result := by
  unfold gets at h
  split at h
  · next quota _ _ c n l _ hl => exact ⟨quota, c, n, l, rfl, hl, h⟩
  · cases h

theorem Turn.connection_of_finished {x y : Exchange} {hub hub' : Hub} (t : x.Turn hub y hub')
    (hy : y.stage = .finished) : y.connection = none := by
  cases t with
  | quit touched quits => exact quits.connection
  | unacquired stage step quits => exact quits.connection
  | returned completes stage connection same => exact connection
  | acquired stage step next => rcases next with h | h <;> simp [h] at hy
  | parsed stage feed next => rcases next with h | h | ⟨piece, h⟩ <;> simp [h] at hy
  | planned stage made next => simp [next] at hy
  | acquiring stage step next => simp [next] at hy
  | secured stage connection carries next => simp [next] at hy
  | wrote stage writes found write next => simp [next] at hy
  | written stage writes failure next => simp [next] at hy
  | read stage found read next => simp [next] at hy
  | retried stage touched like next => simp [next] at hy
  | offered stage next => simp [next] at hy

end Exchange
end HttpClient
