import HttpClient.Proofs.Scenario.Answers
import HttpClient.Proofs.Scenario.Flights
set_option autoImplicit false

/-!
How long a chain of redirects gets, and what is left of it in the reply. Each hop is one exchange;
all but the last were answered with a redirect that was followed.
-/

namespace HttpClient
namespace Redirect

/-- A request that was dispatched, and what came of it. -/
structure Hop where
  request : Request
  result : Except Failure Answer
  deriving DecidableEq

def Hop.Leads (h : Hop) (auto : Bool) (q : Request) : Prop :=
  ∃ a, h.result = .ok a ∧ a.request = h.request ∧ next a auto = some q

section Follow

variable {σ : Type} {dispatch : Request → σ → Except Failure Answer × σ} {drain : Answer → σ → σ}
  {o : ClientOptions}

/-- Dispatches requests and keeps a list of what comes of them. -/
def observe (dispatch : Request → σ → Except Failure Answer × σ) (r : Request) (s : σ × List Hop) :
    Except Failure Answer × (σ × List Hop) :=
  ((dispatch r s.1).1, (dispatch r s.1).2, s.2 ++ [⟨r, (dispatch r s.1).1⟩])

def drainObserved (drain : Answer → σ → σ) (a : Answer) (s : σ × List Hop) : σ × List Hop :=
  (drain a s.1, s.2)

/-- The hops from a request to the end of its chain, with `left` more redirects to follow. -/
inductive Trail (dispatch : Request → σ → Except Failure Answer × σ) (drain : Answer → σ → σ)
    (o : ClientOptions) :
    Nat → List Answer → Request → σ → List Hop → Except Failure Reply → σ → Prop where
  | fails {left : Nat} {previous : List Answer} {r : Request} {s t : σ} {failure : Failure}
      (hop : dispatch r s = (.error failure, t)) :
      Trail dispatch drain o left previous r s [⟨r, .error failure⟩] (.error failure) t
  | ends {left : Nat} {previous : List Answer} {r : Request} {s t : σ} {a : Answer}
      (hop : dispatch r s = (.ok a, t)) (last : o.maxRedirects = 0 ∨ next a o.autoReferer = none) :
      Trail dispatch drain o left previous r s [⟨r, .ok a⟩] (.ok ⟨a, previous⟩) t
  | exceeds {previous : List Answer} {r q : Request} {s t : σ} {a : Answer}
      (hop : dispatch r s = (.ok a, t)) (follows : o.maxRedirects ≠ 0)
      (more : next a o.autoReferer = some q) :
      Trail dispatch drain o 0 previous r s [⟨r, .ok a⟩]
        (.error (.tooManyRedirects o.maxRedirects)) t
  | goes {left : Nat} {previous : List Answer} {r q : Request} {s t u : σ} {a : Answer}
      {hops : List Hop} {result : Except Failure Reply} (hop : dispatch r s = (.ok a, t))
      (follows : o.maxRedirects ≠ 0) (more : next a o.autoReferer = some q)
      (rest : Trail dispatch drain o left (a :: previous) q (drain a t) hops result u) :
      Trail dispatch drain o (left + 1) previous r s (⟨r, .ok a⟩ :: hops) result u

theorem trail_of_followFrom (dispatch : Request → σ → Except Failure Answer × σ)
    (drain : Answer → σ → σ) (o : ClientOptions) (left : Nat) (previous : List Answer) (r : Request)
    (s : σ) (log : List Hop) :
    let run := followFrom dispatch drain o left previous r s
    ∃ hops, Trail dispatch drain o left previous r s hops run.1 run.2 ∧
      followFrom (observe dispatch) (drainObserved drain) o left previous r (s, log) =
        (run.1, run.2, log ++ hops) := by
  -- Each answer that leads on uses up one of the redirects that are left.
  induction left generalizing previous r s log with
  | zero =>
    unfold followFrom
    rcases hd : dispatch r s with ⟨failure | a, t⟩ <;> simp only [observe, hd]
    · exact ⟨_, .fails hd, rfl⟩
    · split
      · next hm => exact ⟨_, .ends hd (.inl hm), rfl⟩
      · next hm =>
        cases hn : next a o.autoReferer with
        | none => exact ⟨_, .ends hd (.inr hn), rfl⟩
        | some q => exact ⟨_, .exceeds hd hm hn, rfl⟩
  | succ left ih =>
    unfold followFrom
    rcases hd : dispatch r s with ⟨failure | a, t⟩ <;> simp only [observe, hd]
    · exact ⟨_, .fails hd, rfl⟩
    · split
      · next hm => exact ⟨_, .ends hd (.inl hm), rfl⟩
      · next hm =>
        cases hn : next a o.autoReferer with
        | none => exact ⟨_, .ends hd (.inr hn), rfl⟩
        | some q =>
          obtain ⟨hops, trail, hsame⟩ := ih (a :: previous) q (drain a t) (log ++ [⟨r, .ok a⟩])
          refine ⟨_, .goes hd hm hn trail, ?_⟩
          rw [List.append_assoc] at hsame
          exact hsame

namespace Trail

variable {left : Nat} {previous : List Answer} {r : Request} {s t : σ} {hops : List Hop}
  {result : Except Failure Reply}

theorem length_le (h : Trail dispatch drain o left previous r s hops result t) :
    hops.length ≤ left + 1 := by
  induction h with
  | fails hop => simp
  | ends hop last => simp
  | exceeds hop follows more => simp
  | goes hop follows more rest ih => simpa using ih

theorem first (h : Trail dispatch drain o left previous r s hops result t) :
    ∃ rest, hops = ⟨r, (dispatch r s).1⟩ :: rest := by
  cases h with
  | fails hop => exact ⟨_, by rw [hop]⟩
  | ends hop last => exact ⟨_, by rw [hop]⟩
  | exceeds hop follows more => exact ⟨_, by rw [hop]⟩
  | goes hop follows more rest => exact ⟨_, by rw [hop]⟩

theorem linked (h : Trail dispatch drain o left previous r s hops result t)
    (faithful : ∀ r s a, (dispatch r s).1 = .ok a → a.request = r) :
    hops.IsChain fun hop later => hop.Leads o.autoReferer later.request := by
  induction h with
  | fails hop => exact .singleton _
  | ends hop last => exact .singleton _
  | exceeds hop follows more => exact .singleton _
  | goes hop follows more rest ih =>
    obtain ⟨hops, rfl⟩ := rest.first
    exact .cons_cons ⟨_, rfl, faithful _ _ _ (by rw [hop]), more⟩ ih

/-- A reply has all answers of the chain, and the last of them leads no further. -/
theorem of_reply {reply : Reply}
    (h : Trail dispatch drain o left previous r s hops (.ok reply) t) :
    ∃ answers, hops.map (·.result) = answers.map .ok ∧
      (reply.answer :: reply.previous).reverse = previous.reverse ++ answers ∧
      (o.maxRedirects = 0 ∨ next reply.answer o.autoReferer = none) := by
  generalize hr : (Except.ok reply : Except Failure Reply) = result at h
  induction h with
  | fails hop => cases hr
  | @ends left previous r s t a hop last =>
    cases hr
    exact ⟨[a], rfl, by simp, last⟩
  | exceeds hop follows more => cases hr
  | @goes left previous r q s t u a hops result hop follows more rest ih =>
    obtain ⟨answers, hresults, hanswers, hlast⟩ := ih hr
    refine ⟨a :: answers, ?_, ?_, hlast⟩
    · rw [List.map_cons, hresults, List.map_cons]
    · rw [hanswers, List.reverse_cons, List.append_assoc]
      rfl

/-- A chain is given up when every one of its hops leads on, and no redirects are left. -/
theorem exceeds_iff (h : Trail dispatch drain o left previous r s hops result t)
    (faithful : ∀ r s a, (dispatch r s).1 = .ok a → a.request = r)
    (distinct : ∀ r s, (dispatch r s).1 ≠ .error (.tooManyRedirects o.maxRedirects))
    (follows : o.maxRedirects ≠ 0) :
    result = .error (.tooManyRedirects o.maxRedirects) ↔
      hops.length = left + 1 ∧ ∀ hop ∈ hops, ∃ q, hop.Leads o.autoReferer q := by
  induction h with
  | @fails left previous r s t failure hop =>
    have hne := distinct r s
    rw [hop] at hne
    refine ⟨fun he => ?_, fun ⟨_, hall⟩ => ?_⟩
    · cases he
      exact absurd rfl hne
    · obtain ⟨q, a, ha, -⟩ := hall _ (List.mem_singleton_self _)
      cases ha
  | ends hop last =>
    refine ⟨fun he => (by cases he), fun ⟨_, hall⟩ => ?_⟩
    obtain ⟨q, a, ha, -, hq⟩ := hall _ (List.mem_singleton_self _)
    cases ha
    rw [last.resolve_left follows] at hq
    cases hq
  | exceeds hop follows more =>
    refine ⟨fun _ => ⟨rfl, fun h hh => ?_⟩, fun _ => rfl⟩
    cases List.mem_singleton.1 hh
    exact ⟨_, _, rfl, faithful _ _ _ (by rw [hop]), more⟩
  | goes hop follows' more rest ih =>
    rw [ih]
    simp only [List.length_cons, Nat.add_right_cancel_iff, List.mem_cons, forall_eq_or_imp]
    exact and_congr_right fun _ =>
      (and_iff_right ⟨_, _, rfl, faithful _ _ _ (by rw [hop]), more⟩).symm

theorem of_failure {failure : Failure}
    (h : Trail dispatch drain o left previous r s hops (.error failure) t) :
    o.maxRedirects ≠ 0 ∧ failure = .tooManyRedirects o.maxRedirects ∨
      ∃ hop, hops.getLast? = some hop ∧ hop.result = .error failure := by
  generalize hr : (Except.error failure : Except Failure Reply) = result at h
  induction h with
  | fails hop =>
    cases hr
    exact .inr ⟨_, rfl, rfl⟩
  | ends hop last => cases hr
  | exceeds hop follows more =>
    cases hr
    exact .inl ⟨follows, rfl⟩
  | goes hop follows more rest ih =>
    refine (ih hr).imp_right fun ⟨last, hlast, hfailure⟩ => ⟨last, ?_, hfailure⟩
    rw [List.getLast?_cons, hlast]
    rfl

theorem tells {tells : σ → List Hop → Prop} {log : List Hop}
    (h : Trail dispatch drain o left previous r s hops result t) (hs : tells s log)
    (hdispatch : ∀ r s log, tells s log → tells (dispatch r s).2 (log ++ [⟨r, (dispatch r s).1⟩]))
    (hdrain : ∀ a s log, tells s log → tells (drain a s) log) : tells t (log ++ hops) := by
  have hone {r : Request} {s t : σ} {result : Except Failure Answer} {log : List Hop}
      (hop : dispatch r s = (result, t)) (hs : tells s log) : tells t (log ++ [⟨r, result⟩]) := by
    have htells := hdispatch r s log hs
    rwa [hop] at htells
  induction h generalizing log with
  | fails hop => exact hone hop hs
  | ends hop last => exact hone hop hs
  | exceeds hop follows more => exact hone hop hs
  | goes hop follows more rest ih =>
    have hrest := ih (hdrain _ _ _ (hone hop hs))
    rwa [List.append_assoc] at hrest

end Trail

end Follow

end Redirect

namespace Scenario.Scene

open Redirect

def hops (o : ClientOptions) (r : Request) (interruption : Interruption) (s : Scene) : List Hop :=
  match o.fields with
  | .error _ => []
  | .ok defaults =>
    (follow (observe (dispatch o defaults)) (drainObserved drain) o r
      ({ s with interruption := interruption }, [])).2.2

/-- The exchanges that have begun since an earlier scene were these hops, and have told what is said
to have come of them. -/
structure Tells (s t : Scene) (hops : List Hop) : Prop where
  requests : t.requests = s.requests ++ hops.map (·.request)
  answered : ∀ (k : Nat) (hop : Hop), hops[k]? = some hop →
    t.Answered (s.flights.length + k) hop.result

section Tells

variable {s t u : Scene} {hops : List Hop}

theorem tells_nil (h : t.flights = s.flights) : s.Tells t [] :=
  ⟨by simp [Scene.requests, h], by simp⟩

theorem Tells.length (h : s.Tells t hops) : t.flights.length = s.flights.length + hops.length := by
  simpa [Scene.requests] using congrArg List.length h.requests

theorem Tells.goes (h : s.Tells t hops) (goes : t.Goes u) : s.Tells u hops :=
  ⟨goes.requests.trans h.requests, fun k hop hk => goes.answered (h.answered k hop hk)⟩

theorem Tells.dispatch (h : s.Tells t hops) (o : ClientOptions) (defaults : Fields) (r : Request) :
    s.Tells (t.dispatch o defaults r).2 (hops ++ [⟨r, (t.dispatch o defaults r).1⟩]) := by
  obtain ⟨proceeds, answered⟩ := proceeds_dispatch o defaults r t
  refine ⟨?_, fun k hop hk => ?_⟩
  · rw [proceeds.goes.requests, requests_begun, h.requests, List.map_append, List.append_assoc]
    rfl
  · rcases Nat.lt_or_ge k hops.length with earlier | last
    · rw [List.getElem?_append_left earlier] at hk
      exact proceeds.goes.answered (answered_begun (h.answered k hop hk))
    · rw [List.getElem?_append_right last] at hk
      obtain ⟨hzero, rfl⟩ : k - hops.length = 0 ∧ hop = ⟨r, (t.dispatch o defaults r).1⟩ := by
        simpa [List.getElem?_singleton, eq_comm] using hk
      have hk : s.flights.length + k = t.flights.length := by
        rw [h.length]
        omega
      exact hk ▸ answered

end Tells

section Send

variable {o : ClientOptions} {r : Request} {interruption : Interruption} {s : Scene}

theorem fields_of_merge {client : ClientOptions} {overrides : RequestOptions}
    (h : client.merge overrides = .ok o) : ∃ defaults, o.fields = .ok defaults := by
  unfold ClientOptions.merge at h
  cases hf : (client.override overrides).fields with
  | error error =>
    simp only [hf] at h
    cases h
  | ok defaults =>
    simp only [hf] at h
    cases h
    exact ⟨defaults, hf⟩

theorem goes_calm {t : Scene} (h : s.Goes t) :
    s.Goes { t with interruption := .never }.settle :=
  Along.trans (t := { t with interruption := .never }) (h.trans (along_of_flights rfl))
    (goes_settle _)

theorem trail_of_send (s : Scene) (r : Request) (interruption : Interruption) {defaults : Fields}
    (h : o.fields = .ok defaults) :
    ∃ t, Trail (dispatch o defaults) drain o o.maxRedirects [] r
        { s with interruption := interruption } (s.hops o r interruption)
        (s.send o r interruption).1 t ∧ t.Goes (s.send o r interruption).2 := by
  obtain ⟨hops, trail, hsame⟩ := trail_of_followFrom (dispatch o defaults) drain o o.maxRedirects []
    r { s with interruption := interruption } []
  have hhops : s.hops o r interruption = hops := by
    simp only [Scene.hops, h, follow, hsame, List.nil_append]
  rw [hhops]
  simp only [send, h, follow]
  rcases hrun : followFrom (dispatch o defaults) drain o o.maxRedirects [] r
    { s with interruption := interruption } with ⟨failure | reply, t⟩ <;> rw [hrun] at trail
  · refine ⟨t, trail, goes_calm (along_foldl (fun t n => ?_) t _)⟩
    split
    · exact .refl t
    · exact goes_leave t n
  · refine ⟨t, trail, goes_calm ?_⟩
    split
    · exact (proceeds_cancelOne t _ _).goes
    · exact .refl t

end Send

end Scenario.Scene

namespace Redirect

open Scenario

/-- Redirects are followed up to the bound. However many there are, each hop answers the one before
it; a reply tells of all of them, the last first, and leads no further; more redirects than the
bound are the failure that says so, and any other failure is that of the last hop. -/
theorem redirects_stay_within_bound (client : ClientOptions) (overrides : RequestOptions)
    (o : ClientOptions) (merged : client.merge overrides = .ok o) (r : Request)
    (interruption : Interruption) (s : Scene) :
    let bound := o.maxRedirects
    let hops := s.hops o r interruption
    let sent := s.send o r interruption
    (hops.length ≤ bound + 1 ∧ s.Tells sent.2 hops) ∧
      ((∃ result rest, hops = ⟨r, result⟩ :: rest) ∧
        hops.IsChain fun hop later => hop.Leads o.autoReferer later.request) ∧
      (∀ reply, sent.1 = .ok reply →
        reply.redirectCount + 1 = hops.length ∧ reply.firstRequest = r ∧
          hops.map (·.result) = (reply.answer :: reply.previous).reverse.map .ok ∧
          (bound = 0 ∨ next reply.answer o.autoReferer = none)) ∧
      (0 < bound → (sent.1 = .error (.tooManyRedirects bound) ↔
        hops.length = bound + 1 ∧ ∀ hop ∈ hops, ∃ q, hop.Leads o.autoReferer q)) ∧
      ∀ failure, sent.1 = .error failure →
        0 < bound ∧ failure = .tooManyRedirects bound ∨
          ∃ hop, hops.getLast? = some hop ∧ hop.result = .error failure := by
  intro bound hops sent
  obtain ⟨defaults, hfields⟩ := Scene.fields_of_merge merged
  obtain ⟨t, trail, goes⟩ := Scene.trail_of_send s r interruption hfields
  have faithful (r : Request) (s : Scene) (a : Answer)
      (h : (Scene.dispatch o defaults r s).1 = .ok a) : a.request = r :=
    Scene.request_of_dispatch h
  have distinct (r : Request) (s : Scene) :
      (Scene.dispatch o defaults r s).1 ≠ .error (.tooManyRedirects o.maxRedirects) := by
    intro h
    obtain ⟨-, x, -, proper, told⟩ := Scene.proceeds_dispatch o defaults r s
    exact proper.kind_of_mailbox (told.trans (congrArg _ h)) rfl
  obtain ⟨rest, hfirst⟩ := trail.first
  refine ⟨⟨trail.length_le, ?_⟩, ⟨⟨_, rest, hfirst⟩, trail.linked faithful⟩, fun reply h => ?_,
    fun hb => trail.exceeds_iff faithful distinct (Nat.pos_iff_ne_zero.1 hb), fun failure h => ?_⟩
  · have start : s.Tells { s with interruption := interruption } [] := Scene.tells_nil rfl
    have tells : s.Tells t hops :=
      trail.tells start (fun r _ _ tells => tells.dispatch o defaults r)
        fun a t _ tells => tells.goes (t.goes_drain a)
    exact tells.goes goes
  · obtain ⟨answers, hresults, hanswers, hlast⟩ := Trail.of_reply (h ▸ trail)
    have hall : answers = (reply.answer :: reply.previous).reverse := hanswers.symm
    rw [hall] at hresults
    refine ⟨?_, ?_, hresults, hlast⟩
    · have hlength := congrArg List.length hresults
      simpa [Reply.redirectCount] using hlength.symm
    · rw [Reply.firstRequest, List.getLastD_eq_getLast?]
      refine faithful r { s with interruption := interruption } _ ?_
      have hhead : (hops.map (·.result)).head? = some (Scene.dispatch o defaults r _).1 :=
        congrArg (fun hops => (hops.map Hop.result).head?) hfirst
      rw [hresults, List.head?_map, List.head?_reverse, List.getLast?_cons] at hhead
      exact (Option.some.inj hhead).symm
  · exact (Trail.of_failure (h ▸ trail)).imp_left (And.imp_left Nat.pos_iff_ne_zero.2)

/-- A far end that sends every request back to where it came from. -/
def circling : Scene :=
  let reply : PeerReply :=
    ⟨[Bytes.ofText "HTTP/1.1 302 Found\r\nLocation: /\r\nContent-Length: 0\r\n\r\n"],
      false, false, false⟩
  .new (.new (.new .none .standard) [.new .accepts none [reply, reply]])

def circled : Request :=
  .ofUrl "GET" ⟨"http", "", none, some "h", none, .segments [""], none, none⟩

theorem redirects_of_circling_exceed :
    let overrides := { RequestOptions.none with maxRedirects := some 1 }
    let o := { ClientOptions.standard with maxRedirects := 1 }
    ClientOptions.standard.merge overrides = .ok o ∧ (circling.hops o circled .never).length = 2 ∧
      (circling.send o circled .never).1 = .error (.tooManyRedirects 1) := by
  intro overrides o
  have hlength : (circling.hops o circled .never).length = 2 := by decide +kernel
  have hleads : (circling.hops o circled .never).all (fun hop =>
      hop.result.toOption.any fun a => a.request = hop.request ∧ (next a true).isSome) = true := by
    decide +kernel
  obtain ⟨-, -, -, hexceeds, -⟩ :=
    redirects_stay_within_bound .standard overrides o rfl circled .never circling
  refine ⟨rfl, hlength, (hexceeds (by decide)).2 ⟨hlength, fun hop hhop => ?_⟩⟩
  have hleads := List.all_eq_true.1 hleads hop hhop
  cases hr : hop.result with
  | error failure => simp [hr, Except.toOption] at hleads
  | ok a =>
    simp only [hr, Except.toOption, Option.any_some, decide_eq_true_eq] at hleads
    obtain ⟨q, hq⟩ := Option.isSome_iff_exists.1 hleads.2
    exact ⟨q, a, hr, hleads.1, hq⟩

end Redirect
end HttpClient
