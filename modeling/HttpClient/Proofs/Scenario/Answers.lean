import HttpClient.Proofs.Exchange.Turns
import HttpClient.Scenario.Transfers
set_option autoImplicit false

/-! An answer is an answer to the request that was dispatched, whatever else goes on meanwhile. -/

namespace HttpClient

theorem Answer.request_of_ofHead {head : ResponseHead} {bodiless : Bool} {request : Request}
    {session : Option TlsSession} {source : Nat} {a : Answer}
    (h : ofHead head bodiless request session source = .ok a) : a.request = request := by
  simp only [ofHead, bind, Except.bind, pure, Except.pure] at h
  repeat' split at h
  all_goals cases h
  all_goals rfl

namespace Exchange

/-- The exchange is for this request, and so is its answer, if there is one. -/
structure For (x : Exchange) (r : Request) : Prop where
  request : x.request = r
  answer : ∀ a, x.mailbox = .filled (.ok a) → a.request = r

section For

variable {x y : Exchange} {r : Request} {hub : Hub} {plan : Plan}

theorem For.same (hx : x.For r) (hr : y.request = x.request) (hm : y.mailbox = x.mailbox) :
    y.For r :=
  ⟨hr.trans hx.request, fun a ha => hx.answer a (hm ▸ ha)⟩

theorem For.discardConnection (hx : x.For r) (hub : Hub) : (x.discardConnection hub).1.For r := by
  unfold Exchange.discardConnection
  cases x.connection <;> exact hx.same rfl rfl

theorem For.fail (hx : x.For r) (failure : Failure) (hub : Hub) : (x.fail failure hub).1.For r := by
  unfold Exchange.fail
  dsimp only
  refine For.discardConnection ?_ hub
  refine ⟨hx.request, fun a ha => ?_⟩
  cases hm : x.mailbox with
  | empty =>
    simp only [hm] at ha
    cases ha
  | abandoned =>
    simp only [hm] at ha
    cases ha
  | filled result =>
    simp only [hm] at ha
    exact hx.answer a (hm.trans ha)

theorem For.abandon (hx : x.For r) (hub : Hub) : (x.abandon hub).1.For r := by
  unfold Exchange.abandon
  refine For.discardConnection ?_ hub
  exact hx.same rfl rfl

theorem For.begin (hx : x.For r) (hub : Hub) : (x.begin hub).1.For r := by
  unfold Exchange.begin
  split
  · exact hx.fail _ hub
  · exact hx.same rfl rfl

theorem For.acquire {a : Acquisition} {result : Exchange × Hub} (hx : x.For r)
    (h : x.acquire plan a hub = some result) : result.1.For r := by
  unfold Exchange.acquire at h
  split at h <;> cases h
  · exact hx.same rfl rfl
  · exact hx.fail _ _
  · dsimp only
    split <;> exact hx.same rfl rfl

theorem For.secure (hx : x.For r) : (x.secure plan hub).1.For r := by
  unfold Exchange.secure
  dsimp only
  repeat' split
  all_goals first
    | exact hx.same rfl rfl
    | refine For.fail ?_ _ _
      exact hx.same rfl rfl

theorem For.write {p : Payload} (hx : x.For r) : (x.write plan p hub).1.For r := by
  unfold Exchange.write
  repeat' split
  all_goals first
    | exact hx.same rfl rfl
    | exact hx.fail _ _

theorem For.read {quota : Nat} {receipt : Receipt} {result : Exchange × Hub} (hx : x.For r)
    (h : x.read quota plan receipt hub = some result) : result.1.For r := by
  unfold Exchange.read at h
  split at h
  · cases h
    exact hx.fail _ _
  · split at h <;> cases h
    · exact hx.fail _ _
    · unfold receive
      split
      · split
        · refine For.discardConnection ?_ _
          exact hx.same rfl rfl
        · exact hx.same rfl rfl
      · exact hx.same rfl rfl

theorem For.parse {receipt : Receipt} {data : Bytes} (hx : x.For r) :
    (x.parse plan receipt data hub).1.For r := by
  unfold Exchange.parse
  rcases receipt.parser.feed data with ⟨error | _ | ⟨head, bodiless⟩ | piece | trailers, q⟩
  · exact hx.fail _ _
  · dsimp only
    split
    · exact hx.fail _ _
    · exact hx.same rfl rfl
  · dsimp only
    unfold Exchange.answer
    dsimp only
    split
    · refine For.fail ?_ _ _
      exact hx.same rfl rfl
    · next answer ha =>
      split
      · refine ⟨hx.request, fun b hb => ?_⟩
        cases hb
        exact (Answer.request_of_ofHead ha).trans hx.request
      · refine For.abandon ?_ _
        exact hx.same rfl rfl
  · dsimp only
    unfold takeChunk
    repeat' split
    · exact hx.fail _ _
    · exact hx.same rfl rfl
    · exact hx.same rfl rfl
  · dsimp only
    unfold complete
    cases x.connection <;> exact hx.same rfl rfl

theorem For.offer {receipt : Receipt} {data : Bytes} {result : Exchange × Hub} (hx : x.For r)
    (h : x.offer plan receipt data hub = some result) : result.1.For r := by
  unfold Exchange.offer at h
  split at h <;> cases h
  · exact hx.abandon _
  · exact hx.same rfl rfl

theorem For.step {quota : Nat} {result : Exchange × Hub} (hx : x.For r)
    (h : x.step quota hub = some result) : result.1.For r := by
  unfold Exchange.step at h
  split at h
  · cases h
    exact hx.begin hub
  · exact hx.acquire h
  · cases h
    exact hx.secure
  · cases h
    exact hx.write
  · exact hx.read h
  · cases h
    exact hx.parse
  · exact hx.offer h
  · cases h

theorem For.cancel (hx : x.For r) (cause : Cause) (hub : Hub) : (x.cancel cause hub).1.For r := by
  unfold Exchange.cancel
  split
  · exact hx
  · exact hx.fail _ hub

end For

end Exchange

namespace Scenario.Scene

def Serves (s : Scene) (n : Nat) (r : Request) : Prop := ∀ x, s.flight? n = some x → x.For r

section Serves

variable {s t : Scene} {n : Nat} {r : Request}

theorem serves_of_flights (h : s.Serves n r) (ht : t.flights = s.flights) : t.Serves n r := by
  intro x hx
  unfold flight? at hx
  rw [ht] at hx
  exact h x hx

theorem for_of_stepFirst {hub hub' : Hub} {fs fs' : List Flight}
    (h : stepFirst hub fs = some (fs', hub'))
    (hfs : ∀ x, (fs[n]?).map (·.exchange) = some x → x.For r) :
    ∀ x, (fs'[n]?).map (·.exchange) = some x → x.For r := by
  induction fs generalizing fs' n with
  | nil => cases h
  | cons f fs ih =>
    simp only [stepFirst] at h
    split at h
    · next x hub₁ hstep =>
      cases h
      cases n with
      | zero =>
        rintro y ⟨⟩
        exact (hfs f.exchange rfl).step hstep
      | succ n => exact hfs
    · obtain ⟨⟨gs, hub₁⟩, hgs, hrest⟩ := Option.map_eq_some_iff.1 h
      cases hrest
      cases n with
      | zero => exact hfs
      | succ n => exact fun x hx => ih hgs (fun x hx => hfs x hx) x hx

theorem Serves.move (h : s.Serves n r) (ht : s.move = some t) : t.Serves n r := by
  unfold Scene.move at ht
  split at ht
  · next fs hub hstep =>
    cases ht
    exact for_of_stepFirst hstep h
  · obtain ⟨w, -, rfl⟩ := Option.map_eq_some_iff.1 ht
    exact h

theorem Serves.moveAll (h : s.Serves n r) (fuel : Nat) : (moveAll fuel s).Serves n r := by
  induction fuel generalizing s with
  | zero => exact h
  | succ fuel ih =>
    unfold Scene.moveAll
    split
    · next t ht => exact ih (h.move ht)
    · exact h

theorem Serves.settle (h : s.Serves n r) : s.settle.Serves n r := h.moveAll _

theorem Serves.setExchange {m : Nat} {x : Exchange} (h : s.Serves n r) (hx : m = n → x.For r) :
    (s.setExchange m x).Serves n r := by
  intro y hy
  simp only [flight?, Scene.setExchange, List.getElem?_modify] at hy
  by_cases hm : m = n
  · subst hm
    cases hf : s.flights[m]? with
    | none => simp [hf] at hy
    | some f =>
      rw [hf] at hy
      cases hy
      simpa using hx rfl
  · simp only [hm, ite_false] at hy
    exact h y (by simpa [flight?] using hy)

theorem Serves.cancelOne (h : s.Serves n r) (m : Nat) (cause : Cause) :
    (s.cancelOne m cause).Serves n r := by
  unfold Scene.cancelOne
  split
  · exact h
  · next x hx =>
    refine Serves.setExchange (serves_of_flights h rfl) ?_
    rintro rfl
    exact (h x hx).cancel cause _

theorem Serves.foldl {α : Type} {act : Scene → α → Scene}
    (hact : ∀ s a, Serves s n r → Serves (act s a) n r) (h : s.Serves n r) (as : List α) :
    (as.foldl act s).Serves n r := by
  induction as generalizing s with
  | nil => exact h
  | cons a as ih => exact ih (hact s a h)

theorem Serves.passTo (h : s.Serves n r) (moment : Nat) : (s.passTo moment).Serves n r := by
  unfold Scene.passTo
  refine Serves.foldl (fun s f hs => ?_) ?_ _
  · exact hs.cancelOne _ _
  · exact serves_of_flights h rfl

theorem Serves.lapse (h : s.Serves n r) (m : Nat) : (s.lapse m).Serves n r := by
  unfold Scene.lapse
  split
  · refine Serves.cancelOne ?_ _ _
    exact serves_of_flights h rfl
  · exact h.passTo _
  · exact h.cancelOne _ _

theorem Serves.await {a : Answer} (h : s.Serves n r) (ha : (s.await n).1 = .ok a) :
    a.request = r := by
  unfold Scene.await at ha
  generalize s.flights.length + 2 = fuel at ha
  induction fuel generalizing s with
  | zero => cases ha
  | succ fuel ih =>
    simp only [awaitWithin] at ha
    split at ha
    · cases ha
    · next x hx =>
      split at ha
      · next result hm =>
        cases ha
        exact (h.settle x hx).answer a hm
      · exact ih (h.settle.lapse n) ha

theorem request_of_dispatch {o : ClientOptions} {defaults : Fields} {a : Answer}
    (ha : (dispatch o defaults r s).1 = .ok a) : a.request = r := by
  unfold dispatch at ha
  dsimp only at ha
  have hnew : ∀ t : Scene, (∃ f : Flight, f.exchange = .new s.flights.length r o defaults ∧
      t.flights = s.flights ++ [f]) → t.Serves s.flights.length r := by
    rintro t ⟨f, hf, ht⟩ x hx
    simp only [flight?, ht, List.getElem?_concat_length, Option.map_some, Option.some.injEq] at hx
    subst hx
    rw [hf]
    exact ⟨rfl, fun a ha => by cases ha⟩
  split at ha
  · exact Serves.await (Serves.cancelOne (hnew _ ⟨_, rfl, rfl⟩) _ _) ha
  · exact Serves.await (hnew _ ⟨_, rfl, rfl⟩) ha

end Serves

end Scenario.Scene
end HttpClient
