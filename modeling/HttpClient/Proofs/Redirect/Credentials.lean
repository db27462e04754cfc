import HttpClient.Proofs.Redirect.Construction
import HttpClient.Proofs.Scenario.Answers
set_option autoImplicit false

/-!
What a request carries along a chain of redirects. The fields that are bound to a host go on as
long as host and port stay the same.
-/

namespace HttpClient

namespace Redirect

section Hop

variable {a : Answer} {r : Request} {target : Url} {auto : Bool} {name : String}

theorem values_onward (hn : name ∈ hostBound) : (onward a target).fields.values name =
    if sameHost a.request.url target then a.request.fields.values name else [] := by
  have hothers : bodyBound.any (Text.sameWord · name) = false ∧
      hostBound.any (Text.sameWord · name) = true ∧ Text.sameWord "Referer" name = false := by
    revert name
    decide
  obtain ⟨hbody, hhost, hreferer⟩ := hothers
  have hdropped : (dropped a target).any (Text.sameWord · name) =
      !sameHost a.request.url target := by
    unfold dropped
    by_cases hg : becomesGet a.start.status a.request.method = true <;>
      cases hs : sameHost a.request.url target <;> simp [hg, hbody, hhost, hreferer]
  rw [onward, Fields.values_foldl_without, hdropped]
  cases sameHost a.request.url target <;> rfl

/-- The next request has the fields of the answered one that are bound to its host, if it goes to
the same host and port, and otherwise none of them. -/
theorem values_of_next (h : next a auto = some r) (hn : name ∈ hostBound) :
    r.fields.values name =
      if sameHost a.request.url r.url then a.request.fields.values name else [] := by
  rw [next_eq] at h
  obtain ⟨target, -, rfl⟩ := Option.map_eq_some_iff.1 h
  have hreferer : (refererField a.request.url).named name = false := by
    have hother : ∀ name ∈ hostBound, Text.sameWord "Referer" name = false := by decide
    exact hother name hn
  rcases withReferer_cases (onward a target) a.request.url auto with he | he <;> rw [he]
  · exact values_onward hn
  · have hpushed := (onward a target).fields.values_push (refererField a.request.url) name
    rw [hreferer, if_neg Bool.false_ne_true, List.append_nil] at hpushed
    exact hpushed.trans (values_onward hn)

end Hop

/-- An answer that leads from one scheme to another on the same host and port. -/
def downgrade : Answer :=
  let url : Url := ⟨"https", "", none, some "h", some 8443, .segments [""], none, none⟩
  let request : Request := { Request.ofUrl "GET" url with
    fields := ⟨[⟨"Authorization", "secret"⟩]⟩ }
  ⟨⟨.http11, 302, "Found"⟩, ⟨[⟨"Location", "http://h:8443/"⟩]⟩, request, none, .ofSource 0 []⟩

/-- Only host and port are compared. -/
theorem downgrade_keeps_credentials : ∃ r, next downgrade true = some r ∧
    r.url.origin ≠ downgrade.request.url.origin ∧
    r.fields.values "Authorization" = ["secret"] := by
  refine ⟨_, rfl, ?_, ?_⟩ <;> decide +kernel

/-- Requests of which each follows an answer to the one before. -/
inductive Chain (auto : Bool) : Request → List Request → Prop where
  | last (r : Request) : Chain auto r []
  | hop {a : Answer} {r : Request} {rest : List Request} (step : next a auto = some r)
      (more : Chain auto r rest) : Chain auto a.request (r :: rest)

theorem sameHost_iff (u v : Url) :
    sameHost u v = true ↔ u.hostText = v.hostText ∧ u.effectivePort = v.effectivePort := by
  simp [sameHost]

/-- All of these go to the host and port of `r`. -/
def stays (r : Request) (sent : List Request) : Bool := sent.all fun q => sameHost r.url q.url

theorem stays_cons (r q : Request) (sent : List Request) :
    stays r (q :: sent) = (sameHost r.url q.url && stays q sent) := by
  unfold stays
  rw [List.all_cons]
  cases hq : sameHost r.url q.url with
  | false => rfl
  | true =>
    obtain ⟨hhost, hport⟩ := (sameHost_iff r.url q.url).1 hq
    simp only [sameHost, hhost, hport]

theorem Chain.values {auto : Bool} {r q : Request} {sent : List Request} {name : String} {i : Nat}
    (h : Chain auto r sent) (hn : name ∈ hostBound) (hq : sent[i]? = some q) :
    q.fields.values name = if stays r (sent.take (i + 1)) then r.fields.values name else [] := by
  induction h generalizing i with
  | last r => cases hq
  | @hop a p rest step more ih =>
    have hp := values_of_next step hn
    rw [List.take_succ_cons, stays_cons]
    cases i with
    | zero =>
      cases hq
      simpa [stays] using hp
    | succ i =>
      rw [ih hq, hp]
      cases sameHost a.request.url p.url <;> simp

def record {σ : Type} (dispatch : Request → σ → Except Failure Answer × σ) (r : Request)
    (s : σ × List Request) : Except Failure Answer × (σ × List Request) :=
  ((dispatch r s.1).1, (dispatch r s.1).2, s.2 ++ [r])

def drainRecorded {σ : Type} (drain : Answer → σ → σ) (a : Answer) (s : σ × List Request) :
    σ × List Request := (drain a s.1, s.2)

section Follow

variable {σ : Type} {dispatch : Request → σ → Except Failure Answer × σ} {drain : Answer → σ → σ}
  {o : ClientOptions}

theorem followFrom_record (left : Nat) (previous : List Answer) (r : Request) (s : σ)
    (log : List Request) :
    let recorded := followFrom (record dispatch) (drainRecorded drain) o left previous r (s, log)
    followFrom dispatch drain o left previous r s = (recorded.1, recorded.2.1) := by
  induction left generalizing previous r s log with
  | zero =>
    unfold followFrom
    rcases hd : dispatch r s with ⟨_ | a, t⟩ <;> simp only [record, hd]
    split
    · rfl
    · cases next a o.autoReferer <;> rfl
  | succ left ih =>
    unfold followFrom
    rcases hd : dispatch r s with ⟨_ | a, t⟩ <;> simp only [record, hd]
    split
    · rfl
    · cases next a o.autoReferer with
      | none => rfl
      | some r' => exact ih (a :: previous) r' (drain a t) (log ++ [r])

/-- If answers are to the requests that were dispatched, the requests make a chain. -/
theorem chain_of_followFrom
    (faithful : ∀ r s a, (dispatch r s).1 = .ok a → a.request = r) (left : Nat)
    (previous : List Answer) (r : Request) (s : σ) (log : List Request) :
    ∃ sent, Chain o.autoReferer r sent ∧
      (followFrom (record dispatch) (drainRecorded drain) o left previous r (s, log)).2.2 =
        log ++ r :: sent := by
  induction left generalizing previous r s log with
  | zero =>
    refine ⟨[], .last r, ?_⟩
    unfold followFrom
    rcases hd : dispatch r s with ⟨_ | a, t⟩ <;> simp only [record, hd]
    split
    · rfl
    · cases next a o.autoReferer <;> rfl
  | succ left ih =>
    unfold followFrom
    rcases hd : dispatch r s with ⟨_ | a, t⟩ <;> simp only [record, hd]
    · exact ⟨[], .last r, rfl⟩
    · split
      · exact ⟨[], .last r, rfl⟩
      · cases hnext : next a o.autoReferer with
        | none => exact ⟨[], .last r, rfl⟩
        | some r' =>
          obtain ⟨sent, hchain, hlog⟩ := ih (a :: previous) r' (drain a t) (log ++ [r])
          have ha : a.request = r := faithful r s a (by rw [hd])
          rw [List.append_assoc] at hlog
          exact ⟨r' :: sent, ha ▸ .hop hnext hchain, hlog⟩

end Follow

open Scenario in
/-- At every redirect, and so along every chain that a client follows, a request has the fields that
are bound to the first one's host exactly as long as all hops stay on its host and port. -/
theorem host_bound_fields_stay (o : ClientOptions) (defaults : Fields) (r : Request) (s : Scene) :
    let recorded :=
      follow (record (Scene.dispatch o defaults)) (drainRecorded Scene.drain) o r (s, [])
    (∀ a auto q, next a auto = some q → ∀ name ∈ hostBound, q.fields.values name =
      if sameHost a.request.url q.url then a.request.fields.values name else []) ∧
    follow (Scene.dispatch o defaults) Scene.drain o r s = (recorded.1, recorded.2.1) ∧
    ∃ sent, recorded.2.2 = r :: sent ∧
      ∀ i q, sent[i]? = some q → ∀ name ∈ hostBound, q.fields.values name =
        if stays r (sent.take (i + 1)) then r.fields.values name else [] := by
  intro recorded
  have faithful : ∀ r s a, (Scene.dispatch o defaults r s).1 = .ok a → a.request = r :=
    fun r s a => Scene.request_of_dispatch
  obtain ⟨sent, hchain, hsent⟩ :
      ∃ sent, Chain o.autoReferer r sent ∧ recorded.2.2 = [] ++ r :: sent :=
    chain_of_followFrom faithful o.maxRedirects [] r s []
  exact ⟨fun a auto q h name hn => values_of_next h hn, followFrom_record _ _ r s [], sent, hsent,
    fun i q hq name hn => hchain.values hn hq⟩

end Redirect
end HttpClient
