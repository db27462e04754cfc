import HttpClient.Proofs.Exchange.Sound
set_option autoImplicit false

/-! Keeping connections alive never lets one response answer another request. -/

namespace HttpClient

theorem Prepared.keepAlive_of_prepare {r : Request} {version : Version} {defaults : Fields}
    {p : Prepared} (h : prepare r version defaults = .ok p) :
    p.keepAlive = !p.head.fields.hasToken "Connection" "close" := by
  simp only [prepare, bind, Except.bind, pure, Except.pure] at h
  repeat' split at h
  all_goals cases h
  all_goals rfl

theorem Exchange.keepAlive_of_plan {x : Exchange} {plan : Plan} (h : x.plan = .ok plan) :
    plan.prepared.keepAlive = !plan.prepared.head.fields.hasToken "Connection" "close" := by
  simp only [Exchange.plan, bind, Except.bind, pure, Except.pure] at h
  repeat' split at h
  all_goals cases h
  all_goals exact Prepared.keepAlive_of_prepare ‹Prepared.prepare _ _ _ = .ok _›

theorem Hub.quiet_of_release {hub : Hub} {h : Handle} {c : IdleConnection}
    (hc : c ∈ (hub.release h).2.pool.idle) (hn : c ∉ hub.pool.idle) :
    c.id = h.id ∧ ∃ l, hub.linkOf h = some (c.transport.link, l) ∧ l.isQuiet = true := by
  unfold Hub.release Pool.release at hc
  cases ht : h.transport with
  | none =>
    simp only [ht] at hc
    exact absurd hc hn
  | some t =>
    simp only [ht] at hc
    split at hc
    · next hkept =>
      rcases List.mem_cons.1 hc with rfl | hc
      · simp only [Bool.and_eq_true, usable, Option.any_eq_true] at hkept
        obtain ⟨⟨-, l, hl, hq⟩, -⟩ := hkept
        exact ⟨rfl, l, Hub.linkOf_eq_some_iff.2 ⟨by rw [ht]; rfl, hl⟩, hq⟩
      · exact absurd hc hn
    · exact absurd hc hn

namespace Exchange

/-- The exchange gives its connection back. Its request is written completely, and all that has
come since it has the connection is one response, which does not end with the connection; neither
side asked for the connection to be closed. -/
structure CleanEnd (x : Exchange) (lease : Lease) (arrived : Nat → Bytes) (plan : Plan)
    (r : Receipt) (q : Parser) (n : Nat) (l : Link) (later : Bytes) (head : ResponseHead) :
    Prop where
  made : x.plan = .ok plan
  written : l.outbound = lease.sent ++ (x.payload plan).writes.flatten
  unbroken : (x.payload plan).failure = none
  complete : ∃ data trailers, x.stage = .parsing plan r data ∧
    r.parser.feed data = (.ok (some (.complete trailers)), q)
  ended : r.ended = false
  remaining : q.buffer = []
  quiet : l.isQuiet = true
  arrived : arrived n = lease.arrived ++ later
  response : ∃ bodiless body trailers, (∀ e ∈ body, ∃ piece, e = .chunk piece) ∧
    x.reader.drain (lease.unread ++ later) =
      (.head head bodiless :: (body ++ [.complete trailers]), none, q)
  delimited : Framing.resolve head.fields (x.reader.noBody head.start.status) ≠ .ok .untilClose
  switched : head.start.status ≠ 101
  asked : plan.prepared.head.fields.hasToken "Connection" "close" = false
  answered : head.fields.hasToken "Connection" "close" = false
  version : head.start.version = .http10 → head.fields.contains "Connection" = true

section Ends

variable {x : Exchange} {lease : Lease} {hub : Hub} {arrived : Nat → Bytes} {plan : Plan}
  {r : Receipt} {data : Bytes} {q : Parser} {h : Handle} {n : Nat} {l : Link}

theorem exists_cleanEnd (hx : x.Sound lease hub arrived) (completes : x.Completes plan r data q h)
    (found : x.linkOf hub = some (h, n, l)) (quiet : l.isQuiet = true) :
    ∃ later head, x.CleanEnd lease arrived plan r q n l later head := by
  simp only [Sound, completes.stage] at hx
  obtain ⟨later, line⟩ := hx.onLine.line found
  obtain ⟨es, hes, hkeep⟩ := hx.received.heads completes.ended
  obtain ⟨trailers, hfeed⟩ := completes.feed
  -- the link is quiet, so what was fed is all that came
  have hread : lease.fed ++ data = lease.unread ++ later := by
    have hpend : x.pending = data := by simp only [pending, completes.stage]
    have := line.read
    rwa [hpend, (l.isQuiet_iff.1 quiet).1, List.append_nil] at this
  have hfed := hes.feed hfeed
  rw [hread] at hfed
  obtain ⟨head, bodiless, body, trailers', hdrain, hbody, hframing, hheads⟩ :=
    Parser.Fed.message (Parser.settled_forMethod _ _) rfl hfed (Parser.ended_of_feed hfeed)
  rw [List.flatMap_append] at hheads
  have hmem : (head, bodiless) ∈ es.flatMap Event.heads := by
    have : es.flatMap Event.heads = [(head, bodiless)] := by simpa [Event.heads] using hheads
    rw [this]
    exact List.mem_singleton_self _
  obtain ⟨hclose, hstatus⟩ := hkeep completes.keepAlive _ hmem
  simp only [ResponseHead.mustClose, Bool.or_eq_false_iff, Bool.and_eq_false_iff] at hclose
  refine ⟨later, head, hx.planned.made, line.written, hx.unbroken,
    ⟨data, trailers, completes.stage, hfeed⟩, completes.ended, completes.remaining, quiet,
    line.arrived, ⟨bodiless, body, trailers', hbody, hdrain⟩, hframing, hstatus, ?_, hclose.1,
    fun hv => ?_⟩
  · have hk := hx.planned.keepAlive completes.keepAlive
    rw [keepAlive_of_plan hx.planned.made] at hk
    simpa using hk
  · rcases hclose.2 with hc | hc
    · simpa using hc
    · simp [hv] at hc

theorem goes_cancel (hx : x.Sound lease hub arrived) (cause : Cause) :
    x.Goes hub (x.cancel cause hub) := by
  unfold cancel
  split
  · next hf =>
    have hs : x.stage = .finished := by
      unfold isFinished at hf
      split at hf
      · assumption
      · cases hf
    simp only [Sound, hs] at hx
    exact ⟨.refl x, .quit .untouched ⟨hs, hx, .refl hub⟩⟩
  · exact goes_fail (.refl x) .untouched _

theorem idle_cancel (x : Exchange) (cause : Cause) (hub : Hub) :
    (x.cancel cause hub).2.pool.idle = hub.pool.idle := by
  unfold cancel
  split
  · rfl
  · exact (quits_fail x _ hub).like.idle

theorem stage_leave (x : Exchange) : x.leave.stage = x.stage := by
  unfold leave
  cases x.mailbox <;> rfl

theorem asks_leave (x : Exchange) : x.Asks x.leave := by
  unfold leave
  cases x.mailbox <;> exact ⟨rfl, rfl, rfl⟩

theorem stays_leave (x : Exchange) : x.Stays x.leave := by
  unfold leave
  cases x.mailbox <;> exact ⟨rfl, rfl⟩

end Ends

end Exchange

namespace Traffic

open Function (update)

def tenure (s : Traffic) (i : Nat) : Tenure := (s.exchange i).elim .nothing Exchange.tenure

/-- All exchanges are sound, and none has the connection of another. -/
structure Orderly (origin : Pool) (s : Traffic) : Prop where
  custody : Custody origin s.hub s.tenure
  sound : ∀ i x, s.exchange i = some x → x.Sound (s.lease i) s.hub s.arrived

section Steps

variable {origin : Pool} {s t : Traffic} {i : Nat} {x y : Exchange}

theorem tenure_of_exchange (hx : s.exchange i = some x) : s.tenure i = x.tenure := by
  rw [tenure, hx]
  rfl

theorem tenure_of_update (h : t.exchange = update s.exchange i (some y)) :
    t.tenure = update s.tenure i y.tenure := by
  funext j
  by_cases hj : j = i
  · subst hj
    rw [Function.update_self, tenure, h, Function.update_self]
    rfl
  · rw [Function.update_of_ne hj, tenure, h, Function.update_of_ne hj]
    rfl

namespace Orderly

theorem new (proxies : Proxies) (config : PoolConfig) :
    Orderly (.new proxies config) (Traffic.new proxies config) where
  custody := .new proxies config
  sound i x hx := by cases hx

theorem put {result : Exchange × Hub} (h : Orderly origin s) (hx : s.exchange i = some x)
    (goes : x.Goes s.hub result) : Orderly origin (s.put i x result) where
  custody := by
    rw [tenure_of_update rfl]
    exact goes.2.custody h.custody (tenure_of_exchange hx)
  sound j y hy := by
    have hsound := h.sound i x hx
    by_cases hj : j = i
    · subst hj
      simp only [Traffic.put, Function.update_self, Option.some.injEq] at hy ⊢
      subst hy
      exact goes.2.sound goes.1 hsound
    -- the others have links of their own
    · simp only [Traffic.put, Function.update_of_ne hj] at hy ⊢
      refine (h.sound j y hy).frame fun n hn hlt => goes.2.links hsound.wired hlt fun hown => ?_
      have hjn : (Tenure.link? ∘ s.tenure) j = some n := by
        rw [Function.comp_apply, tenure_of_exchange hy, hn]
      have hin : (Tenure.link? ∘ s.tenure) i = some n := by
        rw [Function.comp_apply, tenure_of_exchange hx, hown]
      exact hj (h.custody.links.apart j i n hjn hin)

theorem same (h : Orderly origin s) (hx : s.exchange i = some x) (asks : x.Asks y)
    (stage : y.stage = x.stage) (stays : x.Stays y) :
    Orderly origin { s with exchange := update s.exchange i (some y) } where
  custody := by
    have htenure : y.tenure = x.tenure := by
      simp only [Exchange.tenure, stage, stays.connection]
    rw [tenure_of_update rfl, htenure]
    exact h.custody.keep (tenure_of_exchange hx)
  sound j z hz := by
    by_cases hj : j = i
    · subst hj
      simp only [Function.update_self, Option.some.injEq] at hz
      subst hz
      exact (h.sound j x hx).same asks stage stays
    · simp only [Function.update_of_ne hj] at hz
      exact h.sound j z hz

theorem start (h : Orderly origin s) (request : Request) (options : ClientOptions)
    (defaults : Fields) :
    Orderly origin
      { s with exchange := update s.exchange i (some (.new i request options defaults)) } where
  custody := by
    rw [tenure_of_update rfl]
    exact h.custody.vacate i rfl rfl
  sound j z hz := by
    by_cases hj : j = i
    · subst hj
      simp only [Function.update_self, Option.some.injEq] at hz
      subst hz
      rfl
    · simp only [Function.update_of_ne hj] at hz
      exact h.sound j z hz

theorem far {n : Nat} {l : Link} (h : Orderly origin s) (hl : s.hub.links[n]? = some l)
    (a : FarAct) :
    Orderly origin { s with
      hub := s.hub.setLink n (a.change l)
      arrived := update s.arrived n (s.arrived n ++ a.sends l) } where
  custody := h.custody.setLink n _
  sound i x hx := (h.sound i x hx).far hl a

theorem wait (h : Orderly origin s) (ms : Nat) :
    Orderly origin { s with hub := { s.hub with now := s.hub.now + ms } } where
  custody := h.custody.of_eq rfl rfl rfl rfl
  sound i x hx := (h.sound i x hx).frame fun _ _ _ => rfl

theorem apply (h : Orderly origin s) (a : Act) : Orderly origin (s.apply a) := by
  cases a with
  | start i request options defaults =>
    simp only [Traffic.apply]
    cases s.exchange i with
    | none => exact h.start request options defaults
    | some x => exact h
  | step i quota =>
    simp only [Traffic.apply]
    cases hx : s.exchange i with
    | none => exact h
    | some x =>
      cases hstep : x.step quota s.hub with
      | none => simpa only [hstep] using h
      | some result => simpa only [hstep] using h.put hx (Exchange.goes_of_step hstep)
  | cancel i cause =>
    simp only [Traffic.apply]
    cases hx : s.exchange i with
    | none => exact h
    | some x => exact h.put hx (Exchange.goes_cancel (h.sound i x hx) cause)
  | leave i =>
    simp only [Traffic.apply]
    cases hx : s.exchange i with
    | none => exact h
    | some x => exact h.same hx x.asks_leave x.stage_leave x.stays_leave
  | pull i reader =>
    simp only [Traffic.apply]
    cases hx : s.exchange i with
    | none => exact h
    | some x => exact h.same hx ⟨rfl, rfl, rfl⟩ rfl ⟨rfl, rfl⟩
  | far n act =>
    simp only [Traffic.apply]
    cases hl : s.hub.links[n]? with
    | none => exact h
    | some l => exact h.far hl act
  | wait ms => exact h.wait ms

theorem run (h : Orderly origin s) (acts : List Act) : Orderly origin (s.run acts) := by
  induction acts generalizing s with
  | nil => exact h
  | cons a acts ih => exact ih (h.apply a)

end Orderly

/-- Connections become idle only when an exchange gives them back at its end. -/
theorem completes_of_idle {a : Act} {c : IdleConnection} (h : Orderly origin s)
    (hc : c ∈ (s.apply a).hub.pool.idle) (hn : c ∉ s.hub.pool.idle) :
    ∃ i quota x plan r data q g, a = .step i quota ∧ s.exchange i = some x ∧
      x.Completes plan r data q g ∧ c ∈ (s.hub.release g).2.pool.idle := by
  cases a with
  | start i request options defaults =>
    simp only [apply] at hc
    cases hx : s.exchange i <;> simp only [hx] at hc <;> exact absurd hc hn
  | step i quota =>
    simp only [apply] at hc
    cases hx : s.exchange i with
    | none =>
      simp only [hx] at hc
      exact absurd hc hn
    | some x =>
      cases hstep : x.step quota s.hub with
      | none =>
        simp only [hx, hstep] at hc
        exact absurd hc hn
      | some result =>
        simp only [hx, hstep, put] at hc
        rcases (Exchange.goes_of_step hstep).2.spares (h.sound i x hx).wired with
          spares | ⟨plan, r, data, q, g, completes, hub⟩
        · exact absurd (spares.idle c hc) hn
        · exact ⟨i, quota, x, plan, r, data, q, g, rfl, hx, completes, hub ▸ hc⟩
  | cancel i cause =>
    simp only [apply] at hc
    cases hx : s.exchange i with
    | none =>
      simp only [hx] at hc
      exact absurd hc hn
    | some x =>
      simp only [hx, put, Exchange.idle_cancel] at hc
      exact absurd hc hn
  | leave i =>
    simp only [apply] at hc
    cases hx : s.exchange i <;> simp only [hx] at hc <;> exact absurd hc hn
  | pull i reader =>
    simp only [apply] at hc
    cases hx : s.exchange i <;> simp only [hx] at hc <;> exact absurd hc hn
  | far n act =>
    simp only [apply] at hc
    cases hl : s.hub.links[n]? <;> simp only [hl] at hc <;> exact absurd hc hn
  | wait ms => exact absurd hc hn

end Steps

/-- In every run a connection becomes idle only at a clean end of an exchange, a connection that is
used again is quiet when it is handed out, and its user's parser is fed only with what comes
after that. -/
theorem responses_stay_apart (proxies : Proxies) (config : PoolConfig) (acts : List Act) :
    let s := (Traffic.new proxies config).run acts
    (∀ a c, c ∈ (s.apply a).hub.pool.idle → c ∉ s.hub.pool.idle →
      ∃ i quota x plan r q h l later head, a = .step i quota ∧ s.exchange i = some x ∧
        x.linkOf s.hub = some (h, c.transport.link, l) ∧ c.id = h.id ∧
        x.CleanEnd (s.lease i) s.arrived plan r q c.transport.link l later head) ∧
    (∀ i x plan a h hub, s.exchange i = some x → x.stage = .acquiring plan a →
      a.step plan.endpoint s.hub = .done h hub → (∃ c ∈ s.hub.pool.idle, c.id = h.id) →
      h.reused = true ∧ ∃ n l, s.hub.linkOf h = some (n, l) ∧ l.isQuiet = true) ∧
    (∀ i x h n l, s.exchange i = some x → x.linkOf s.hub = some (h, n, l) → h.reused = true →
      ∃ later, s.arrived n = (s.lease i).arrived ++ later ∧
        (s.lease i).fed ++ x.pending ++ l.inbound = later ∧
        ∀ r, x.receipt? = some r → x.reader.Reads (s.lease i).fed r.parser) := by
  intro s
  have hs : Orderly (.new proxies config) s := (Orderly.new proxies config).run acts
  refine ⟨fun a c hc hn => ?_, fun i x plan a h hub hx hstage hstep ⟨c, hc, hid⟩ => ?_,
    fun i x h n l hx found hreused => ?_⟩
  · obtain ⟨i, quota, x, plan, r, data, q, h, ha, hx, completes, hc⟩ := completes_of_idle hs hc hn
    obtain ⟨hid, l, hl, hq⟩ := Hub.quiet_of_release hc hn
    have found : x.linkOf s.hub = some (h, c.transport.link, l) := by
      simp [Exchange.linkOf, completes.connection, hl]
    obtain ⟨later, head, clean⟩ :=
      Exchange.exists_cleanEnd (hs.sound i x hx) completes found hq
    exact ⟨i, quota, x, plan, r, q, h, l, later, head, ha, hx, found, hid, clean⟩
  · have hi : s.tenure i = a.tenure :=
      (tenure_of_exchange hx).trans (Exchange.tenure_of_acquiring hstage)
    have hreused := hs.custody.reused_of_idle hi hstep hc hid
    have hsound := hs.sound i x hx
    simp only [Exchange.Sound, hstage] at hsound
    obtain ⟨n, l, hl, -, hq⟩ := Acquisition.quiet_of_done hsound.2.2 hstep hreused
    exact ⟨hreused, n, l, hl, hq⟩
  · obtain ⟨sent, later, line⟩ := (hs.sound i x hx).line found
    refine ⟨later, line.arrived, ?_, fun r => (hs.sound i x hx).reads⟩
    have hread := line.read
    rwa [line.unread hreused, List.nil_append] at hread

/-- An exchange that is answered with one octet, and another one that gets its connection. -/
def twoExchanges : List Act :=
  let url : Url := ⟨"http", "", none, some "h", none, .segments [""], none, none⟩
  let request : Request := .ofUrl "GET" url
  let options : ClientOptions := ⟨0, 0, false, true, [], 1000, 1000⟩
  let answer := Bytes.ofText "HTTP/1.1 200 OK\r\nContent-Length: 1\r\n\r\nx"
  [.start 0 request options .empty, .step 0 1, .step 0 1, .far 0 (.greet .connected none),
    .step 0 1, .step 0 1, .step 0 1, .far 0 (.deliver answer), .step 0 100, .step 0 1, .step 0 1,
    .step 0 1, .start 1 request options .empty, .step 1 1, .step 1 1]

example : (((new .none .standard).run twoExchanges).exchange 1).bind (·.connection) =
    some ⟨1, "h:80", some ⟨0, none⟩, false, true, false⟩ := by
  decide +kernel

end Traffic
end HttpClient
