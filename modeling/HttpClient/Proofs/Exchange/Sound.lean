import HttpClient.Proofs.Exchange.Traffic
set_option autoImplicit false

/-!
What holds of an exchange between any two steps: how far its request is written, and that its
parser was fed what came on its connection since it has it, all of that and nothing else.
-/

namespace HttpClient

theorem Link.inbound_of_write {data : Bytes} {l m : Link} (h : l.write data = .ok m) :
    m.inbound = l.inbound := by
  unfold write at h
  split at h
  · cases h
  · cases h
    rfl

namespace Exchange

def payload (x : Exchange) (plan : Plan) : Payload := .ofRequest plan.prepared x.request.body

def reader (x : Exchange) : Parser := .forMethod x.request.method x.options.limits

/-- The plan is the one for the request, and the connection is kept only if the plan says so. -/
structure Planned (x : Exchange) (plan : Plan) : Prop where
  made : x.plan = .ok plan
  keepAlive : x.keepAlive = true → plan.prepared.keepAlive = true

/-- The connection of the exchange: all that came on it since the exchange has it, and nothing
else, was fed to the parser, is about to be, or is still unread; and `sent` was written. -/
structure Line (x : Exchange) (lease : Lease) (hub : Hub) (arrived : Nat → Bytes) (sent : Bytes)
    (h : Handle) (n : Nat) (l : Link) (later : Bytes) : Prop where
  found : x.linkOf hub = some (h, n, l)
  arrived : arrived n = lease.arrived ++ later
  read : lease.fed ++ x.pending ++ l.inbound = lease.unread ++ later
  unread : h.reused = true → lease.unread = []
  written : l.outbound = lease.sent ++ sent

def OnLine (x : Exchange) (lease : Lease) (hub : Hub) (arrived : Nat → Bytes) (sent : Bytes) :
    Prop :=
  ∃ h n l later, x.Line lease hub arrived sent h n l later

/-- The parser is where the octets fed to it lead. Before the end of the stream the connection is
kept only if no head among them forbids it. -/
structure Received (x : Exchange) (lease : Lease) (r : Receipt) : Prop where
  reads : x.reader.Reads lease.fed r.parser
  heads : r.ended = false → ∃ es, x.reader.Fed lease.fed es r.parser ∧
    (x.keepAlive = true → ∀ start ∈ es.flatMap Event.heads,
      start.1.mustClose = false ∧ start.1.start.status ≠ 101)

structure Receiving (x : Exchange) (lease : Lease) (hub : Hub) (arrived : Nat → Bytes)
    (plan : Plan) (r : Receipt) : Prop where
  planned : x.Planned plan
  received : x.Received lease r
  unbroken : (x.payload plan).failure = none
  onLine : x.OnLine lease hub arrived (x.payload plan).writes.flatten

def receipt? (x : Exchange) : Option Receipt :=
  match x.stage with
  | .reading _ r | .parsing _ r _ | .offering _ r _ => some r
  | _ => none

/-- What holds of an exchange between any two steps. -/
def Sound (x : Exchange) (lease : Lease) (hub : Hub) (arrived : Nat → Bytes) : Prop :=
  match x.stage with
  | .dispatched | .finished => x.connection = none
  | .acquiring plan a => x.connection = none ∧ x.Planned plan ∧ a.Unused
  | .securing plan => x.Planned plan ∧ lease.fed = [] ∧ x.OnLine lease hub arrived []
  | .writing plan p => x.Planned plan ∧ lease.fed = [] ∧ ∃ done,
      done ++ p.writes = (x.payload plan).writes ∧ p.failure = (x.payload plan).failure ∧
      x.OnLine lease hub arrived done.flatten
  | .reading plan r | .parsing plan r _ | .offering plan r _ =>
    x.Receiving lease hub arrived plan r

section Sound

variable {x y : Exchange} {lease : Lease} {hub hub' : Hub} {arrived : Nat → Bytes} {plan : Plan}

theorem plan_of_asks (h : x.Asks y) : y.plan = x.plan := by
  simp only [Exchange.plan, h.request, h.defaults]

theorem payload_of_asks (h : x.Asks y) (plan : Plan) : y.payload plan = x.payload plan := by
  simp only [payload, h.request]

theorem reader_of_asks (h : x.Asks y) : y.reader = x.reader := by
  simp only [reader, h.request, h.options]

theorem Planned.next (hp : x.Planned plan) (h : x.Asks y)
    (hk : y.keepAlive = true → x.keepAlive = true) : y.Planned plan where
  made := (plan_of_asks h).trans hp.made
  keepAlive hy := hp.keepAlive (hk hy)

theorem Sound.wired (h : x.Sound lease hub arrived) : x.Wired := by
  intro plan a hs
  simp only [Sound, hs] at h
  exact h.1

theorem sound_of_finished (hs : x.stage = .finished) (hc : x.connection = none) :
    x.Sound lease hub arrived := by
  simpa only [Sound, hs] using hc

theorem sound_of_start (hs : x.stage = .acquiring plan .start) (hc : x.connection = none)
    (hp : x.Planned plan) : x.Sound lease hub arrived := by
  simp only [Sound, hs]
  refine ⟨hc, hp, ?_⟩
  intro c parser h
  cases h

theorem linkOf_of_connection {x y : Exchange} (h : y.connection = x.connection) (hub : Hub) :
    y.linkOf hub = x.linkOf hub := by
  simp only [linkOf, h]

theorem renew_of_connection {h : Handle} (hc : x.connection = some h) (arrived : Nat → Bytes)
    (y : Exchange) (hub : Hub) :
    lease.renew arrived x y hub = { lease with fed := lease.fed ++ x.pending } := by
  simp [Lease.renew, hc]

theorem renew_of_none {h : Handle} {n : Nat} {l : Link} (hc : x.connection = none)
    (hl : y.linkOf hub = some (h, n, l)) (arrived : Nat → Bytes) :
    lease.renew arrived x y hub = ⟨arrived n, l.inbound, l.outbound, []⟩ := by
  simp [Lease.renew, hc, hl]

theorem linkOf_setLink {h : Handle} {n : Nat} {l : Link} (hl : x.linkOf hub = some (h, n, l))
    (hc : y.connection = x.connection) (m : Link) :
    y.linkOf (hub.setLink n m) = some (h, n, m) := by
  obtain ⟨hx, hn⟩ := linkOf_eq_some hl
  obtain ⟨hwire, hlink⟩ := Hub.linkOf_eq_some_iff.1 hn
  have hlt : n < hub.links.length := (List.getElem?_eq_some_iff.1 hlink).1
  have hset : (hub.setLink n m).linkOf h = some (n, m) :=
    Hub.linkOf_eq_some_iff.2 ⟨hwire, List.getElem?_set_self hlt⟩
  simp [linkOf, hc, hx, hset]

theorem Line.move {sent data later : Bytes} {h h' : Handle} {n : Nat} {l m : Link}
    (line : x.Line lease hub arrived sent h n l later) (found : y.linkOf hub' = some (h', n, m))
    (reused : h'.reused = h.reused) (hin : l.inbound = y.pending ++ m.inbound)
    (hout : m.outbound = l.outbound ++ data) :
    y.OnLine (lease.renew arrived x y hub') hub' arrived (sent ++ data) := by
  rw [renew_of_connection (linkOf_eq_some line.found).1]
  have hread := line.read
  rw [hin] at hread
  refine ⟨h', n, m, later, found, line.arrived, ?_, ?_, ?_⟩
  · simpa using hread
  · exact fun hr => line.unread (reused ▸ hr)
  · rw [hout, line.written, List.append_assoc]

theorem OnLine.line {sent : Bytes} {h : Handle} {n : Nat} {l : Link}
    (line : x.OnLine lease hub arrived sent) (found : x.linkOf hub = some (h, n, l)) :
    ∃ later, x.Line lease hub arrived sent h n l later := by
  obtain ⟨h', n', l', later, line⟩ := line
  have hsame := line.found
  rw [found] at hsame
  cases hsame
  exact ⟨later, line⟩

theorem OnLine.setLink {sent data : Bytes} {h : Handle} {n : Nat} {l m : Link}
    (line : x.OnLine lease hub arrived sent) (found : x.linkOf hub = some (h, n, l))
    (hc : y.connection = x.connection) (hin : l.inbound = y.pending ++ m.inbound)
    (hout : m.outbound = l.outbound ++ data) :
    y.OnLine (lease.renew arrived x y (hub.setLink n m)) (hub.setLink n m) arrived
      (sent ++ data) := by
  obtain ⟨later, line⟩ := line.line found
  exact line.move (linkOf_setLink found hc m) rfl hin hout

theorem OnLine.stay {sent : Bytes} (line : x.OnLine lease hub arrived sent)
    (hc : y.connection = x.connection) (hp : y.pending = []) :
    y.OnLine (lease.renew arrived x y hub) hub arrived sent := by
  obtain ⟨h, n, l, later, line⟩ := line
  have found := (linkOf_of_connection hc hub).trans line.found
  have := line.move found rfl (by rw [hp]; rfl) (List.append_nil l.outbound).symm
  simpa using this

theorem OnLine.fed_renew {sent : Bytes} (line : x.OnLine lease hub arrived sent) (y : Exchange)
    (hub' : Hub) : (lease.renew arrived x y hub').fed = lease.fed ++ x.pending := by
  obtain ⟨h, n, l, later, line⟩ := line
  rw [renew_of_connection (linkOf_eq_some line.found).1]

section Received

variable {lease' : Lease} {r r' : Receipt} {data : Bytes}

theorem Received.keep (hx : x.Received lease r) (h : x.Asks y) (hk : y.keepAlive = x.keepAlive)
    (hfed : lease'.fed = lease.fed) (hp : r'.parser = r.parser) (he : r'.ended = r.ended) :
    y.Received lease' r' := by
  constructor
  · rw [hfed, reader_of_asks h, hp]
    exact hx.reads
  · rw [hfed, reader_of_asks h, hp, he, hk]
    exact hx.heads

theorem Received.finish (hx : x.Received lease r) (h : x.Asks y) (hfed : lease'.fed = lease.fed)
    (hp : r'.parser = r.parser.finish) (he : r'.ended = true) : y.Received lease' r' := by
  constructor
  · rw [hfed, reader_of_asks h, hp]
    exact hx.reads.finish
  · intro hr
    rw [he] at hr
    cases hr

theorem Received.feed {e : Option Event} {q : Parser} (hx : x.Received lease r) (h : x.Asks y)
    (hfed : lease'.fed = lease.fed ++ data) (feed : r.parser.feed data = (.ok e, q))
    (hk : y.keepAlive = true → x.keepAlive = true ∧
      ∀ start ∈ e.toList.flatMap Event.heads,
        start.1.mustClose = false ∧ start.1.start.status ≠ 101) :
    y.Received lease' { r with parser := q } := by
  constructor
  · rw [hfed, reader_of_asks h]
    exact hx.reads.feed feed
  · intro hr
    obtain ⟨es, hes, hheads⟩ := hx.heads hr
    rw [hfed, reader_of_asks h]
    refine ⟨es ++ e.toList, hes.feed feed, fun hy start hs => ?_⟩
    rw [List.flatMap_append, List.mem_append] at hs
    rcases hs with hs | hs
    · exact hheads (hk hy).1 start hs
    · exact (hk hy).2 start hs

end Received

theorem Receiving.next {r r' : Receipt} {lease' : Lease} {arrived' : Nat → Bytes}
    (hx : x.Receiving lease hub arrived plan r) (h : x.Asks y)
    (hk : y.keepAlive = true → x.keepAlive = true) (hr : y.Received lease' r')
    (line : y.OnLine lease' hub' arrived' (x.payload plan).writes.flatten) :
    y.Receiving lease' hub' arrived' plan r' := by
  refine ⟨hx.planned.next h hk, hr, ?_, ?_⟩
  · rw [payload_of_asks h]
    exact hx.unbroken
  · rw [payload_of_asks h]
    exact line

theorem Receives.sound {r : Receipt} (hy : y.Receives plan r)
    (h : y.Receiving lease hub arrived plan r) : y.Sound lease hub arrived := by
  rcases hy with hs | hs | ⟨piece, hs⟩ <;> simpa only [Sound, hs] using h

theorem Receives.pending {r : Receipt} (hy : y.Receives plan r) : y.pending = [] := by
  rcases hy with hs | hs | ⟨piece, hs⟩ <;> simp only [Exchange.pending, hs]

theorem onLine_of_done {a : Acquisition} {h : Handle} (ha : a.Unused)
    (step : a.step plan.endpoint hub = .done h hub') (hx : x.connection = none)
    (hc : y.connection = some h) (hp : y.pending = []) :
    (lease.renew arrived x y hub').fed = [] ∧
      y.OnLine (lease.renew arrived x y hub') hub' arrived [] := by
  obtain ⟨n, l, hl⟩ := Acquisition.linkOf_of_done step
  have found : y.linkOf hub' = some (h, n, l) := by simp [linkOf, hc, hl]
  rw [renew_of_none hx found]
  refine ⟨rfl, h, n, l, [], found, (List.append_nil _).symm, ?_, fun hr => ?_,
    (List.append_nil _).symm⟩
  · simp [hp]
  · obtain ⟨n', l', hl', hlinks, hq⟩ := Acquisition.quiet_of_done ha step hr
    have hsame : hub'.linkOf h = some (n', l') := by
      rw [Hub.linkOf_eq_some_iff] at hl' ⊢
      rwa [hlinks]
    rw [hl] at hsame
    cases hsame
    exact (l.isQuiet_iff.1 hq).1

theorem linkOf_of_carries {c h h' : Handle} {n : Nat} {l : Link}
    (hl : x.linkOf hub = some (c, n, l)) (hx : x.connection = some h) (hy : y.connection = some h')
    (carries : h.Carries h') : c = h ∧ y.linkOf hub = some (h', n, l) := by
  obtain ⟨hc, hn⟩ := linkOf_eq_some hl
  rw [hx] at hc
  cases hc
  obtain ⟨hwire, hlink⟩ := Hub.linkOf_eq_some_iff.1 hn
  have hn' : hub.linkOf h' = some (n, l) :=
    Hub.linkOf_eq_some_iff.2 ⟨carries.link.trans hwire, hlink⟩
  exact ⟨rfl, by simp [linkOf, hy, hn']⟩

theorem OnLine.fed_kept {sent : Bytes} (line : x.OnLine lease hub arrived sent)
    (hp : x.pending = []) (y : Exchange) (hub' : Hub) :
    (lease.renew arrived x y hub').fed = lease.fed := by
  rw [line.fed_renew, hp, List.append_nil]

theorem sound_of_prepared (next : y.stage = .writing plan (y.payload plan)) (hp : y.Planned plan)
    (hfed : lease.fed = []) (line : y.OnLine lease hub arrived []) : y.Sound lease hub arrived := by
  simp only [Sound, next]
  exact ⟨hp, hfed, [], rfl, trivial, line⟩

section Turns

variable {h : Handle} {n : Nat} {l m : Link} {p : Payload} {r : Receipt} {data : Bytes}

theorem sound_acquired {a : Acquisition} (asks : x.Asks y) (hx : x.Sound lease hub arrived)
    (stage : x.stage = .acquiring plan a) (step : a.step plan.endpoint hub = .done h hub')
    (next : y.stage = .securing plan ∨ y.stage = .writing plan (x.payload plan))
    (connection : y.connection = some h) (keepAlive : y.keepAlive = x.keepAlive) :
    y.Sound (lease.renew arrived x y hub') hub' arrived := by
  simp only [Sound, stage] at hx
  obtain ⟨hc, hp, ha⟩ := hx
  have hpend : y.pending = [] := by rcases next with next | next <;> simp only [pending, next]
  have hp := hp.next asks fun hk => keepAlive ▸ hk
  obtain ⟨hfed, line⟩ := onLine_of_done ha step hc connection hpend
  rcases next with next | next
  · simp only [Sound, next]
    exact ⟨hp, hfed, line⟩
  · rw [← payload_of_asks asks] at next
    exact sound_of_prepared next hp hfed line

theorem sound_secured {h' : Handle} (asks : x.Asks y) (hx : x.Sound lease hub arrived)
    (stage : x.stage = .securing plan) (connection : x.connection = some h)
    (carries : h.Carries h') (next : y.stage = .writing plan (x.payload plan))
    (connection' : y.connection = some h') (keepAlive : y.keepAlive = x.keepAlive) :
    y.Sound (lease.renew arrived x y hub) hub arrived := by
  simp only [Sound, stage] at hx
  obtain ⟨hp, hfed, line⟩ := hx
  have hfed' := (line.fed_kept (by simp only [pending, stage]) y hub).trans hfed
  obtain ⟨c, n, l, later, line⟩ := line
  obtain ⟨rfl, found⟩ := linkOf_of_carries line.found connection connection' carries
  have hy : l.inbound = y.pending ++ l.inbound := by simp only [pending, next, List.nil_append]
  have hline := line.move found carries.reused hy (List.append_nil l.outbound).symm
  rw [← payload_of_asks asks] at next
  exact sound_of_prepared next (hp.next asks fun hk => keepAlive ▸ hk) hfed' hline

theorem sound_wrote {rest : List Bytes} (asks : x.Asks y) (hx : x.Sound lease hub arrived)
    (stage : x.stage = .writing plan p) (writes : p.writes = data :: rest)
    (found : x.linkOf hub = some (h, n, l)) (write : l.write data = .ok m)
    (next : y.stage = .writing plan { p with writes := rest }) (stays : x.Stays y) :
    y.Sound (lease.renew arrived x y (hub.setLink n m)) (hub.setLink n m) arrived := by
  simp only [Sound, stage] at hx
  obtain ⟨hp, hfed, done, hdone, hfailure, line⟩ := hx
  have hy : l.inbound = y.pending ++ m.inbound := by
    simp only [pending, next, List.nil_append, Link.inbound_of_write write]
  have hline := line.setLink found stays.connection hy (Link.outbound_of_write write)
  simp only [Sound, next]
  refine ⟨hp.next asks fun hk => stays.keepAlive ▸ hk,
    (line.fed_kept (by simp only [pending, stage]) _ _).trans hfed, done ++ [data], ?_, ?_, ?_⟩
  · rw [payload_of_asks asks, ← hdone, writes, List.append_assoc]
    rfl
  · rw [payload_of_asks asks]
    exact hfailure
  · simpa using hline

theorem sound_written (asks : x.Asks y) (hx : x.Sound lease hub arrived)
    (stage : x.stage = .writing plan p) (writes : p.writes = []) (failure : p.failure = none)
    (next : y.stage = .reading plan ⟨x.reader, 0, false⟩) (stays : x.Stays y) :
    y.Sound (lease.renew arrived x y hub) hub arrived := by
  simp only [Sound, stage] at hx
  obtain ⟨hp, hfed, done, hdone, hfailure, line⟩ := hx
  have hfed' := (line.fed_kept (by simp only [pending, stage]) y hub).trans hfed
  rw [writes, List.append_nil] at hdone
  simp only [Sound, next]
  refine ⟨hp.next asks fun hk => stays.keepAlive ▸ hk, ?_, ?_, ?_⟩
  · constructor
    · rw [hfed', reader_of_asks asks]
      exact .refl
    · intro hr
      rw [hfed', reader_of_asks asks]
      exact ⟨[], .refl _, fun _ start hs => by simp at hs⟩
  · rw [payload_of_asks asks, ← hfailure]
    exact failure
  · rw [payload_of_asks asks, ← hdone]
    exact line.stay stays.connection (by simp only [pending, next])

theorem sound_read {r' : Receipt} {quota : Nat} (asks : x.Asks y) (hx : x.Sound lease hub arrived)
    (stage : x.stage = .reading plan r) (found : x.linkOf hub = some (h, n, l))
    (read : l.read quota = (some (.ok data), m)) (next : y.stage = .parsing plan r' data)
    (receipt : r'.ended = true ∧ r'.parser = r.parser.finish ∧ data = [] ∨
      r'.ended = r.ended ∧ r'.parser = r.parser ∧ data ≠ []) (stays : x.Stays y) :
    y.Sound (lease.renew arrived x y (hub.setLink n m)) (hub.setLink n m) arrived := by
  simp only [Sound, stage] at hx
  have hfed := hx.onLine.fed_kept (by simp only [pending, stage]) y (hub.setLink n m)
  have hr : y.Received (lease.renew arrived x y (hub.setLink n m)) r' := by
    rcases receipt with ⟨he, hp, -⟩ | ⟨he, hp, -⟩
    · exact hx.received.finish asks hfed hp he
    · exact hx.received.keep asks stays.keepAlive hfed hp he
  have hin : l.inbound = y.pending ++ m.inbound := by
    simp only [pending, next, Link.inbound_of_read read]
  have hout : m.outbound = l.outbound ++ [] := by
    rw [Link.outbound_of_read read, List.append_nil]
  have hline := hx.onLine.setLink found stays.connection hin hout
  rw [List.append_nil] at hline
  simp only [Sound, next]
  exact hx.next asks (fun hk => stays.keepAlive ▸ hk) hr hline

theorem sound_parsed {e : Option Event} {q : Parser} (asks : x.Asks y)
    (hx : x.Sound lease hub arrived) (stage : x.stage = .parsing plan r data)
    (feed : r.parser.feed data = (.ok e, q)) (next : y.Receives plan { r with parser := q })
    (connection : y.connection = x.connection)
    (keepAlive : y.keepAlive = true → x.keepAlive = true ∧
      ∀ start ∈ e.toList.flatMap Event.heads,
        start.1.mustClose = false ∧ start.1.start.status ≠ 101) :
    y.Sound (lease.renew arrived x y hub) hub arrived := by
  simp only [Sound, stage] at hx
  have hpend : x.pending = data := by simp only [pending, stage]
  have hfed : (lease.renew arrived x y hub).fed = lease.fed ++ data := by
    rw [hx.onLine.fed_renew, hpend]
  exact next.sound (hx.next asks (fun hk => (keepAlive hk).1)
    (hx.received.feed asks hfed feed keepAlive) (hx.onLine.stay connection next.pending))

theorem sound_offered {piece : Bytes} (asks : x.Asks y) (hx : x.Sound lease hub arrived)
    (stage : x.stage = .offering plan r piece) (next : y.stage = .parsing plan r [])
    (stays : x.Stays y) : y.Sound (lease.renew arrived x y hub) hub arrived := by
  simp only [Sound, stage] at hx
  have hfed := hx.onLine.fed_kept (by simp only [pending, stage]) y hub
  simp only [Sound, next]
  exact hx.next asks (fun hk => stays.keepAlive ▸ hk)
    (hx.received.keep asks stays.keepAlive hfed rfl rfl)
    (hx.onLine.stay stays.connection (by simp only [pending, next]))

end Turns

/-- Every step of an exchange keeps it sound. -/
theorem Turn.sound (t : x.Turn hub y hub') (h : x.Asks y) (hx : x.Sound lease hub arrived) :
    y.Sound (lease.renew arrived x y hub') hub' arrived := by
  cases t with
  | quit touched quits => exact sound_of_finished quits.stage quits.connection
  | unacquired stage step quits => exact sound_of_finished quits.stage quits.connection
  | returned completes stage connection same => exact sound_of_finished stage connection
  | planned stage made next connection keepAlive same =>
    simp only [Sound, stage] at hx
    exact sound_of_start next (connection.trans hx)
      ⟨(plan_of_asks h).trans made, fun hk => keepAlive ▸ hk⟩
  | retried stage touched like next connection keepAlive =>
    simp only [Sound, stage] at hx
    exact sound_of_start next connection (hx.planned.next h fun hk => keepAlive ▸ hk)
  | acquiring stage step next stays =>
    simp only [Sound, stage] at hx
    obtain ⟨hc, hp, ha⟩ := hx
    simp only [Sound, next]
    exact ⟨stays.connection.trans hc, hp.next h fun hk => stays.keepAlive ▸ hk,
      Acquisition.unused_of_next ha step⟩
  | acquired stage step next connection keepAlive =>
    exact sound_acquired h hx stage step next connection keepAlive
  | secured stage connection carries next connection' keepAlive same =>
    rw [same]
    exact sound_secured h hx stage connection carries next connection' keepAlive
  | wrote stage writes found write next stays same =>
    rw [same]
    exact sound_wrote h hx stage writes found write next stays
  | written stage writes failure next stays same =>
    rw [same]
    exact sound_written h hx stage writes failure next stays
  | read stage found read next receipt stays same =>
    rw [same]
    exact sound_read h hx stage found read next receipt stays
  | parsed stage feed next connection keepAlive same =>
    rw [same]
    exact sound_parsed h hx stage feed next connection keepAlive
  | offered stage next stays same =>
    rw [same]
    exact sound_offered h hx stage next stays

theorem Sound.transfer {arrived' : Nat → Bytes} (hx : x.Sound lease hub arrived) (h : x.Asks y)
    (hs : y.stage = x.stage) (stays : x.Stays y)
    (line : ∀ sent, x.OnLine lease hub arrived sent → y.OnLine lease hub' arrived' sent) :
    y.Sound lease hub' arrived' := by
  have hp : ∀ plan, x.Planned plan → y.Planned plan :=
    fun plan hp => hp.next h fun hk => stays.keepAlive ▸ hk
  have hr : ∀ plan r, x.Receiving lease hub arrived plan r →
      y.Receiving lease hub' arrived' plan r := by
    intro plan r hx
    exact hx.next h (fun hk => stays.keepAlive ▸ hk)
      (hx.received.keep h stays.keepAlive rfl rfl rfl) (line _ hx.onLine)
  unfold Sound at hx ⊢
  rw [hs]
  cases hstage : x.stage with
  | dispatched => exact stays.connection.trans (by simpa only [hstage] using hx)
  | finished => exact stays.connection.trans (by simpa only [hstage] using hx)
  | acquiring plan a =>
    simp only [hstage] at hx ⊢
    exact ⟨stays.connection.trans hx.1, hp plan hx.2.1, hx.2.2⟩
  | securing plan =>
    simp only [hstage] at hx ⊢
    exact ⟨hp plan hx.1, hx.2.1, line _ hx.2.2⟩
  | writing plan p =>
    simp only [hstage] at hx ⊢
    obtain ⟨hplanned, hfed, done, hdone, hfailure, hline⟩ := hx
    rw [payload_of_asks h]
    exact ⟨hp plan hplanned, hfed, done, hdone, hfailure, line _ hline⟩
  | reading plan r =>
    simp only [hstage] at hx ⊢
    exact hr plan r hx
  | parsing plan r data =>
    simp only [hstage] at hx ⊢
    exact hr plan r hx
  | offering plan r piece =>
    simp only [hstage] at hx ⊢
    exact hr plan r hx

theorem Sound.frame (hx : x.Sound lease hub arrived)
    (h : ∀ n, x.tenure.link? = some n → n < hub.links.length → hub'.links[n]? = hub.links[n]?) :
    x.Sound lease hub' arrived := by
  refine hx.transfer (.refl x) rfl ⟨rfl, rfl⟩ fun sent line => ?_
  obtain ⟨c, n, l, later, line⟩ := line
  obtain ⟨hc, hn⟩ := linkOf_eq_some line.found
  obtain ⟨hwire, hlink⟩ := Hub.linkOf_eq_some_iff.1 hn
  have hsame := h n (link?_of_linkOf hx.wired line.found) (List.getElem?_eq_some_iff.1 hlink).1
  have hn' : hub'.linkOf c = some (n, l) := Hub.linkOf_eq_some_iff.2 ⟨hwire, hsame.trans hlink⟩
  have found : x.linkOf hub' = some (c, n, l) := by simp [linkOf, hc, hn']
  exact ⟨c, n, l, later, found, line.arrived, line.read, line.unread, line.written⟩

theorem Sound.far {n : Nat} {l : Link} (hx : x.Sound lease hub arrived)
    (hl : hub.links[n]? = some l) (a : FarAct) :
    x.Sound lease (hub.setLink n (a.change l))
      (Function.update arrived n (arrived n ++ a.sends l)) := by
  refine hx.transfer (.refl x) rfl ⟨rfl, rfl⟩ fun sent line => ?_
  obtain ⟨c, m, l', later, line⟩ := line
  obtain ⟨hc, hm⟩ := linkOf_eq_some line.found
  obtain ⟨hwire, hlink⟩ := Hub.linkOf_eq_some_iff.1 hm
  by_cases hnm : m = n
  · subst hnm
    rw [hl] at hlink
    cases hlink
    refine ⟨c, m, a.change l, later ++ a.sends l, linkOf_setLink line.found rfl _, ?_, ?_,
      line.unread, ?_⟩
    · rw [Function.update_self, line.arrived, List.append_assoc]
    · rw [a.inbound_change, ← List.append_assoc, line.read, List.append_assoc]
    · rw [a.outbound_change, line.written]
  · have hn' : (hub.setLink n (a.change l)).linkOf c = some (m, l') := by
      refine Hub.linkOf_eq_some_iff.2 ⟨hwire, ?_⟩
      rw [← hlink]
      exact List.getElem?_set_ne (Ne.symm hnm)
    have found : x.linkOf (hub.setLink n (a.change l)) = some (c, m, l') := by
      simp [linkOf, hc, hn']
    refine ⟨c, m, l', later, found, ?_, line.read, line.unread, line.written⟩
    rw [Function.update_of_ne hnm, line.arrived]

theorem Sound.same (hx : x.Sound lease hub arrived) (h : x.Asks y) (hs : y.stage = x.stage)
    (stays : x.Stays y) : y.Sound lease hub arrived := by
  refine hx.transfer h hs stays fun sent line => ?_
  obtain ⟨c, n, l, later, line⟩ := line
  have hp : y.pending = x.pending := by simp only [pending, hs]
  exact ⟨c, n, l, later, (linkOf_of_connection stays.connection hub).trans line.found,
    line.arrived, hp ▸ line.read, line.unread, line.written⟩

theorem Sound.reads {r : Receipt} (hx : x.Sound lease hub arrived) (hr : x.receipt? = some r) :
    x.reader.Reads lease.fed r.parser := by
  unfold receipt? at hr
  cases hs : x.stage <;> simp only [Sound, hs] at hx <;> simp only [hs] at hr <;> cases hr
  all_goals exact hx.received.reads

theorem Sound.line {h : Handle} {n : Nat} {l : Link} (hx : x.Sound lease hub arrived)
    (found : x.linkOf hub = some (h, n, l)) :
    ∃ sent later, x.Line lease hub arrived sent h n l later := by
  have hline : ∀ sent, x.OnLine lease hub arrived sent →
      ∃ sent later, x.Line lease hub arrived sent h n l later := by
    intro sent line
    obtain ⟨later, line⟩ := line.line found
    exact ⟨sent, later, line⟩
  have hc : x.connection ≠ none := by
    rw [(linkOf_eq_some found).1]
    exact Option.some_ne_none h
  cases hs : x.stage with
  | dispatched =>
    simp only [Sound, hs] at hx
    exact absurd hx hc
  | finished =>
    simp only [Sound, hs] at hx
    exact absurd hx hc
  | acquiring plan a =>
    simp only [Sound, hs] at hx
    exact absurd hx.1 hc
  | securing plan =>
    simp only [Sound, hs] at hx
    exact hline _ hx.2.2
  | writing plan p =>
    simp only [Sound, hs] at hx
    obtain ⟨-, -, done, -, -, line⟩ := hx
    exact hline _ line
  | reading plan r =>
    simp only [Sound, hs] at hx
    exact hline _ hx.onLine
  | parsing plan r data =>
    simp only [Sound, hs] at hx
    exact hline _ hx.onLine
  | offering plan r piece =>
    simp only [Sound, hs] at hx
    exact hline _ hx.onLine

end Sound

end Exchange
end HttpClient
