import HttpClient.Proofs.Exchange.Resolution
set_option autoImplicit false

/-!
An exchange among others is the same exchange by itself: what is done to it in a run is a list of
acts of its own, each push with the hub as it was then.
-/

namespace HttpClient

namespace Exchange

inductive Act where
  | push (m : Push) (hub : Hub)
  | leave
  | pull (reader : Reader)

def apply (x : Exchange) : Act → Exchange
  | .push m hub =>
    match x.push m hub with
    | none => x
    | some result => result.1
  | .leave => x.leave
  | .pull reader => (x.pull reader).2.2

def run (x : Exchange) (acts : List Act) : Exchange := acts.foldl apply x

end Exchange

namespace Traffic

open Function (update)

/-- What an act does to exchange `i`. -/
def Act.own (i : Nat) (hub : Hub) : Act → List Exchange.Act
  | .step j quota => if j = i then [.push (.go quota) hub] else []
  | .cancel j cause => if j = i then [.push (.cancel cause) hub] else []
  | .leave j => if j = i then [.leave] else []
  | .pull j reader => if j = i then [.pull reader] else []
  | .start .. | .far .. | .wait _ => []

def own (s : Traffic) (i : Nat) : List Act → List Exchange.Act
  | [] => []
  | a :: acts => a.own i s.hub ++ (s.apply a).own i acts

section Own

variable {s : Traffic} {i : Nat} {x : Exchange}

theorem apply_cancel (x : Exchange) (cause : Cause) (hub : Hub) :
    x.apply (.push (.cancel cause) hub) = (x.cancel cause hub).1 := by
  cases hf : x.isFinished with
  | true => simp [Exchange.apply, Exchange.push, Exchange.cancel, hf]
  | false => simp [Exchange.apply, Exchange.push, hf]

theorem exchange_apply (hx : s.exchange i = some x) (a : Act) :
    (s.apply a).exchange i = some (x.run (a.own i s.hub)) := by
  have hother {j : Nat} (hj : ¬j = i) (y : Exchange) :
      update s.exchange j (some y) i = some x := by rw [Function.update_of_ne (Ne.symm hj), hx]
  cases a with
  | start j request options defaults =>
    simp only [Traffic.apply, Act.own]
    cases hy : s.exchange j with
    | some y => exact hx
    | none =>
      have hj : ¬j = i := by
        rintro rfl
        cases hx.symm.trans hy
      exact hother hj _
  | step j quota =>
    simp only [Traffic.apply, Act.own]
    by_cases hj : j = i
    · subst hj
      cases push : x.step quota s.hub <;>
        simp [hx, push, put, Exchange.run, Exchange.apply, Exchange.push]
    · cases hy : s.exchange j with
      | none => simp [hj, hx, Exchange.run]
      | some y => cases push : y.step quota s.hub <;> simp [hj, push, put, hother, hx, Exchange.run]
  | cancel j cause =>
    simp only [Traffic.apply, Act.own]
    by_cases hj : j = i
    · subst hj
      simp [hx, put, Exchange.run, apply_cancel]
    · cases hy : s.exchange j <;> simp [hj, put, hother, hx, Exchange.run]
  | leave j =>
    simp only [Traffic.apply, Act.own]
    by_cases hj : j = i
    · subst hj
      simp [hx, Exchange.run, Exchange.apply]
    · cases hy : s.exchange j <;> simp [hj, hother, hx, Exchange.run]
  | pull j reader =>
    simp only [Traffic.apply, Act.own]
    by_cases hj : j = i
    · subst hj
      simp [hx, Exchange.run, Exchange.apply]
    · cases hy : s.exchange j <;> simp [hj, hother, hx, Exchange.run]
  | far n act =>
    simp only [Traffic.apply]
    split <;> exact hx
  | wait ms => exact hx

theorem exchange_run (hx : s.exchange i = some x) (acts : List Act) :
    (s.run acts).exchange i = some (x.run (s.own i acts)) := by
  induction acts generalizing s x with
  | nil => exact hx
  | cons a acts ih =>
    rw [own, Exchange.run, List.foldl_append]
    exact ih (exchange_apply hx a)

theorem push_of_own {a : Act} {m : Push} {hub hub' : Hub} (h : .push m hub ∈ a.own i hub') :
    a.push? = some (i, m) := by
  cases a <;> grind [Act.own, Act.push?]

theorem mem_own {acts : List Act} {m : Push} {hub : Hub} (h : .push m hub ∈ s.own i acts) :
    ∃ a ∈ acts, a.push? = some (i, m) := by
  induction acts generalizing s with
  | nil => cases h
  | cons a acts ih =>
    rcases List.mem_append.1 h with h | h
    · exact ⟨a, List.mem_cons_self, push_of_own h⟩
    · obtain ⟨b, hb, same⟩ := ih h
      exact ⟨b, List.mem_cons_of_mem a hb, same⟩

/-- In a run every exchange goes from its beginning through acts of its own. -/
theorem exists_own (proxies : Proxies) (config : PoolConfig) {acts : List Act}
    (hx : ((Traffic.new proxies config).run acts).exchange i = some x) :
    ∃ request options defaults own, x = (Exchange.new i request options defaults).run own ∧
      ∀ m hub, .push m hub ∈ own → ∃ a ∈ acts, a.push? = some (i, m) := by
  have hstart : (Traffic.new proxies config).exchange i = none := rfl
  generalize Traffic.new proxies config = s at hx hstart
  induction acts generalizing s with
  | nil => simp [Traffic.run, hstart] at hx
  | cons a acts ih =>
    -- Up to the act that begins it there is no exchange; from there on its own acts count.
    cases hfirst : (s.apply a).exchange i with
    | none =>
      obtain ⟨request, options, defaults, own, hown, hpush⟩ := ih (s.apply a) hx hfirst
      refine ⟨request, options, defaults, own, hown, fun m hub hm => ?_⟩
      obtain ⟨b, hb, same⟩ := hpush m hub hm
      exact ⟨b, List.mem_cons_of_mem a hb, same⟩
    | some y =>
      obtain ⟨request, options, defaults, rfl⟩ := new_of_started hstart hfirst
      have hown := exchange_run hfirst acts
      refine ⟨request, options, defaults, _, Option.some.inj (hx.symm.trans hown), ?_⟩
      intro m hub hm
      obtain ⟨b, hb, same⟩ := mem_own hm
      exact ⟨b, List.mem_cons_of_mem a hb, same⟩

end Own

end Traffic
end HttpClient
