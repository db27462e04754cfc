import HttpClient.Proofs.Exchange.Courses
import HttpClient.Proofs.Response.Reports
set_option autoImplicit false

/-!
The body on its way through an exchange: from the parser, which reports it, through what waits for
room, into the queue. A push that does not end the exchange loses nothing of it and says nothing
about its end; each end says how it went.
-/

namespace HttpClient
namespace Exchange

def feeds (x : Exchange) : Push → Bytes
  | .go _ => x.pending
  | .cancel _ => []

def reports (x : Exchange) (m : Push) : List Event :=
  match m, x.stage with
  | .go _, .parsing _ r data =>
    match (r.parser.feed data).1 with
    | .ok e => e.toList
    | .error _ => []
  | _, _ => []

def offered (x : Exchange) : Bytes :=
  match x.stage with
  | .offering _ _ data => data
  | _ => []

structure Told (x : Exchange) (heard : Bytes) (log : List Event) : Prop where
  before : x.receipt? = none → x.stage ≠ .finished → heard = [] ∧ log = []
  within : ∀ r, x.receipt? = some r →
    x.reader.Reports heard log r.parser ∧ r.total = (heard ++ x.pending).length

/-- What a push means to the body. -/
inductive Passage (x : Exchange) (m : Push) (y : Exchange) : Prop where
  | on {queue : List Bytes} (unfinished : y.stage ≠ .finished)
      (channel : y.channel = { x.channel with queue := queue })
      (incomplete : ∀ trailers, .complete trailers ∉ x.reports m)
      (carried : x.options.discardBody = false → queue.flatten ++ y.offered =
        x.channel.queue.flatten ++ x.offered ++ (x.reports m).flatMap Event.octets)
      (told : ∀ heard log, x.Told heard log → y.Told (heard ++ x.feeds m) (log ++ x.reports m))
  | completes {r : Receipt} {q : Parser} {trailers : Fields} (receipt : x.receipt? = some r)
      (feed : r.parser.feed (x.feeds m) = (.ok (some (.complete trailers)), q))
      (reports : x.reports m = [.complete trailers]) (offered : x.offered = [])
      (finished : y.stage = .finished) (channel : y.channel = x.channel.complete)
  | fails {failure : Failure} (incomplete : ∀ trailers, .complete trailers ∉ x.reports m)
      (finished : y.stage = .finished) (channel : y.channel = x.channel.fail failure)
  | abandons (incomplete : ∀ trailers, .complete trailers ∉ x.reports m)
      (finished : y.stage = .finished) (channel : y.channel = x.channel.abandon)

/-- The caller is told one thing at most, and the body goes on its way. -/
structure Passes (x : Exchange) (m : Push) (y : Exchange) : Prop where
  mailbox : x.mailbox ≠ .empty → y.mailbox = x.mailbox
  passage : x.Passage m y

section Passages

variable {x y : Exchange} {m : Push} {hub : Hub} {plan : Plan} {quota : Nat} {r : Receipt}
  {data : Bytes} {q : Parser}

theorem nothing_of_receipt (hx : x.receipt? = none) : x.pending = [] ∧ x.offered = [] := by
  unfold receipt? at hx
  unfold pending offered
  cases hs : x.stage <;> simp [hs] at hx ⊢

theorem reports_of_stage (hs : ∀ plan r data, x.stage ≠ .parsing plan r data) (m : Push) :
    x.reports m = [] := by
  unfold reports
  split
  · next hx => exact absurd hx (hs _ _ _)
  · rfl

theorem reports_of_feed {e : Option Event} (hs : x.stage = .parsing plan r data)
    (hf : r.parser.feed data = (.ok e, q)) : x.reports (.go quota) = e.toList := by
  simp only [reports, hs, hf]

theorem reports_of_error {error : ParseError} (hs : x.stage = .parsing plan r data)
    (hf : r.parser.feed data = (.error error, q)) : x.reports (.go quota) = [] := by
  simp only [reports, hs, hf]

theorem passes_fail {failure : Failure} (mailbox : y.mailbox = x.mailbox)
    (channel : y.channel = x.channel) (incomplete : ∀ trailers, .complete trailers ∉ x.reports m) :
    x.Passes m (y.fail failure hub).1 where
  mailbox hx := by
    rw [← mailbox] at hx ⊢
    simp only [fail, discardConnection_fst]
  passage := by
    have hc : (y.fail failure hub).1.channel = x.channel.fail failure := by
      simp only [fail, discardConnection_fst, channel]
    exact .fails incomplete (quits_fail y failure hub).stage hc

theorem passes_abandon (mailbox : y.mailbox = x.mailbox) (channel : y.channel = x.channel)
    (incomplete : ∀ trailers, .complete trailers ∉ x.reports m) :
    x.Passes m (y.abandon hub).1 where
  mailbox _ := by simp only [abandon, discardConnection_fst, mailbox]
  passage := .abandons incomplete (quits_abandon y hub).stage (by
    simp only [abandon, discardConnection_fst, channel])

theorem passes_before (hx : x.receipt? = none) (unfinished : x.stage ≠ .finished)
    (hy : y.stage ≠ .finished) (mailbox : y.mailbox = x.mailbox) (channel : y.channel = x.channel)
    (offered : y.offered = [])
    (new : ∀ r, y.receipt? = some r → r = ⟨y.reader, 0, false⟩ ∧ y.pending = []) :
    x.Passes (.go quota) y where
  mailbox _ := mailbox
  passage := by
    have hreports : x.reports (.go quota) = [] :=
      reports_of_stage (fun _ _ _ hs => by simp [receipt?, hs] at hx) _
    obtain ⟨hpending, hoffered⟩ := nothing_of_receipt hx
    refine .on hy channel (by simp [hreports]) (fun _ => ?_) fun heard log ht => ?_
    · simp [hreports, hoffered, offered]
    · obtain ⟨rfl, rfl⟩ := ht.before hx unfinished
      rw [hreports, feeds, hpending]
      refine ⟨fun _ _ => ⟨rfl, rfl⟩, fun r hr => ?_⟩
      obtain ⟨rfl, hpending⟩ := new r hr
      exact ⟨.start, by simp [hpending]⟩

theorem passes_early (hx : x.receipt? = none) (unfinished : x.stage ≠ .finished)
    (hy : y.receipt? = none) (hy' : y.stage ≠ .finished) (mailbox : y.mailbox = x.mailbox)
    (channel : y.channel = x.channel) : x.Passes (.go quota) y :=
  passes_before hx unfinished hy' mailbox channel (nothing_of_receipt hy).2
    fun r hr => by simp [hy] at hr

theorem passes_begin (hs : x.stage = .dispatched) : x.Passes (.go quota) (x.begin hub).1 := by
  have hreports := reports_of_stage (x := x) (by simp [hs]) (.go quota)
  unfold begin
  split
  · exact passes_fail rfl rfl (by simp [hreports])
  · exact passes_early (by simp [receipt?, hs]) (by simp [hs]) rfl (by simp) rfl rfl

theorem passes_acquire {a : Acquisition} {result : Exchange × Hub}
    (hs : x.stage = .acquiring plan a) (h : x.acquire plan a hub = some result) :
    x.Passes (.go quota) result.1 := by
  have hreports := reports_of_stage (x := x) (by simp [hs]) (.go quota)
  have hx : x.receipt? = none := by simp [receipt?, hs]
  unfold acquire at h
  split at h
  · cases h
  · cases h
    exact passes_early hx (by simp [hs]) rfl (by simp) rfl rfl
  · cases h
    exact passes_fail rfl rfl (by simp [hreports])
  · cases h
    by_cases hsec : plan.endpoint.secure = true <;> simp only [hsec] <;>
      exact passes_early hx (by simp [hs]) rfl (by simp [startWriting]) rfl rfl

theorem passes_secure (hs : x.stage = .securing plan) :
    x.Passes (.go quota) (x.secure plan hub).1 := by
  have hreports := reports_of_stage (x := x) (by simp [hs]) (.go quota)
  have hx : x.receipt? = none := by simp [receipt?, hs]
  unfold secure
  split
  · exact passes_fail rfl rfl (by simp [hreports])
  · dsimp only
    repeat' split
    · exact passes_early hx (by simp [hs]) rfl (by simp [startWriting]) rfl rfl
    · exact passes_early hx (by simp [hs]) rfl (by simp [startWriting]) rfl rfl
    · exact passes_fail rfl rfl (by simp [hreports])
    · exact passes_fail rfl rfl (by simp [hreports])

theorem passes_write {p : Payload} (hs : x.stage = .writing plan p) :
    x.Passes (.go quota) (x.write plan p hub).1 := by
  have hreports := reports_of_stage (x := x) (by simp [hs]) (.go quota)
  have hx : x.receipt? = none := by simp [receipt?, hs]
  unfold write
  split
  · exact passes_fail rfl rfl (by simp [hreports])
  · refine passes_before hx (by simp [hs]) (by simp [startReading]) rfl rfl rfl fun r hr => ?_
    cases hr
    exact ⟨rfl, rfl⟩
  · split
    · exact passes_fail rfl rfl (by simp [hreports])
    · split
      · exact passes_fail rfl rfl (by simp [hreports])
      · exact passes_early hx (by simp [hs]) rfl (by simp) rfl rfl

theorem told_of_feed {e : Option Event} (hs : x.stage = .parsing plan r data)
    (hf : r.parser.feed data = (.ok e, q)) (heard : Bytes) (log : List Event)
    (reports : x.reader.Reports heard log r.parser) :
    x.reader.Reports (heard ++ x.pending) (log ++ x.reports (.go quota)) q := by
  rw [reports_of_feed hs hf, show x.pending = data by simp only [pending, hs]]
  exact reports.feed hf

theorem passes_within {r' : Receipt} {queue : List Bytes} (hx : x.receipt? = some r)
    (hy : y.receipt? = some r') (asks : x.Asks y) (unfinished : y.stage ≠ .finished)
    (mailbox : x.mailbox ≠ .empty → y.mailbox = x.mailbox)
    (channel : y.channel = { x.channel with queue := queue })
    (incomplete : ∀ trailers, .complete trailers ∉ x.reports (.go quota))
    (carried : x.options.discardBody = false → queue.flatten ++ y.offered =
      x.channel.queue.flatten ++ x.offered ++ (x.reports (.go quota)).flatMap Event.octets)
    (total : r'.total = r.total + y.pending.length)
    (told : ∀ heard log, x.reader.Reports heard log r.parser →
      x.reader.Reports (heard ++ x.pending) (log ++ x.reports (.go quota)) r'.parser) :
    x.Passes (.go quota) y where
  mailbox := mailbox
  passage := by
    refine .on unfinished channel incomplete carried fun heard log ht => ?_
    obtain ⟨reports, htotal⟩ := ht.within r hx
    refine ⟨fun hnone => (by simp [hy] at hnone), fun r'' hr => ?_⟩
    cases hy.symm.trans hr
    rw [reader_of_asks asks]
    refine ⟨told heard log reports, ?_⟩
    simp [total, htotal, feeds, Nat.add_assoc]

theorem passes_retry (hs : x.stage = .reading plan r)
    (hr : r.parser.state = .awaitingHeaders ∧ r.total = 0) :
    x.Passes (.go quota) (x.retry plan hub).1 := by
  have hreports := reports_of_stage (x := x) (by simp [hs]) (.go quota)
  have hpending : x.pending = [] := by simp only [pending, hs]
  have hoffered : x.offered = [] := by simp only [offered, hs]
  have hmade : (x.retry plan hub).1 =
      { x with stage := .acquiring plan .start, retried := true, connection := none } := by
    rw [retry, discardConnection_fst]
  rw [hmade]
  refine ⟨fun _ => rfl, .on (by simp) rfl (by simp [hreports]) (fun _ => ?_) fun heard log ht => ?_⟩
  · rw [hreports, hoffered]
    simp [offered]
  · obtain ⟨reports, total⟩ := ht.within r (by simp [receipt?, hs])
    -- No head yet and no octet read: nothing was reported that could be lost.
    have hlog := reports.eq_nil_of_head rfl (r.parser.awaitingHeaders_iff.1 hr.1)
    have hheard : heard = [] := by
      rw [hr.2, hpending, List.append_nil] at total
      exact List.length_eq_zero_iff.1 total.symm
    subst hheard hlog
    rw [feeds, hpending, hreports]
    exact ⟨fun _ _ => ⟨rfl, rfl⟩, fun _ hr => by cases hr⟩

theorem passes_read {result : Exchange × Hub} (hs : x.stage = .reading plan r)
    (h : x.read quota plan r hub = some result) : x.Passes (.go quota) result.1 := by
  have hreports := reports_of_stage (x := x) (by simp [hs]) (.go quota)
  have hpending : x.pending = [] := by simp only [pending, hs]
  have hx : x.receipt? = some r := by simp only [receipt?, hs]
  unfold read at h
  split at h
  · cases h
    exact passes_fail rfl rfl (by simp [hreports])
  · split at h
    · cases h
    · cases h
      exact passes_fail rfl rfl (by simp [hreports])
    · cases h
      unfold receive
      split
      · split
        · next hretry => exact passes_retry hs ⟨hretry.1, hretry.2.1⟩
        · refine passes_within hx rfl ⟨rfl, rfl, rfl⟩ (by simp) (fun _ => rfl) rfl
            (by simp [hreports]) (fun _ => ?_) rfl fun heard log reports => ?_
          · simp [hreports, offered, hs]
          · simpa [hpending, hreports] using reports.finish
      · refine passes_within hx rfl ⟨rfl, rfl, rfl⟩ (by simp) (fun _ => rfl) rfl
          (by simp [hreports]) (fun _ => ?_) rfl fun heard log reports => ?_
        · simp [hreports, offered, hs]
        · simpa [hpending, hreports] using reports

theorem passes_answer {head : ResponseHead} {bodiless : Bool} (hs : x.stage = .parsing plan r data)
    (hf : r.parser.feed data = (.ok (some (.head head bodiless)), q)) :
    x.Passes (.go quota) (x.answer plan { r with parser := q } head bodiless hub).1 := by
  have hreports : x.reports (.go quota) = [.head head bodiless] := reports_of_feed hs hf
  have hx : x.receipt? = some r := by simp only [receipt?, hs]
  unfold answer
  dsimp only
  split
  · exact passes_fail rfl rfl (by simp [hreports])
  · split
    · next he =>
      refine passes_within hx rfl ⟨rfl, rfl, rfl⟩ (by simp) (fun hne => absurd he hne) rfl
        (by simp [hreports]) (fun _ => ?_) rfl (told_of_feed hs hf)
      simp [hreports, offered, hs, Event.octets]
    · exact passes_abandon rfl rfl (by simp [hreports])

theorem passes_takeChunk {piece : Bytes} (hs : x.stage = .parsing plan r data)
    (hf : r.parser.feed data = (.ok (some (.chunk piece)), q)) :
    x.Passes (.go quota) (x.takeChunk plan { r with parser := q } piece hub).1 := by
  have hreports : x.reports (.go quota) = [.chunk piece] := reports_of_feed hs hf
  have hx : x.receipt? = some r := by simp only [receipt?, hs]
  unfold takeChunk
  split
  · exact passes_fail rfl rfl (by simp [hreports])
  · split
    · next hdiscard =>
      exact passes_within hx rfl ⟨rfl, rfl, rfl⟩ (by simp) (fun _ => rfl) rfl (by simp [hreports])
        (fun hkeep => by simp [hdiscard] at hkeep) rfl (told_of_feed hs hf)
    · refine passes_within hx rfl ⟨rfl, rfl, rfl⟩ (by simp) (fun _ => rfl) rfl (by simp [hreports])
        (fun _ => ?_) rfl (told_of_feed hs hf)
      simp [hreports, offered, hs, Event.octets]

theorem passes_complete {trailers : Fields} {reusable : Bool} (hs : x.stage = .parsing plan r data)
    (hf : r.parser.feed data = (.ok (some (.complete trailers)), q)) :
    x.Passes (.go quota) (x.complete reusable hub).1 := by
  have hreports : x.reports (.go quota) = [.complete trailers] := reports_of_feed hs hf
  have hpending : x.pending = data := by simp only [pending, hs]
  have hfeed : r.parser.feed (x.feeds (.go quota)) = (.ok (some (.complete trailers)), q) := by
    rw [feeds, hpending]
    exact hf
  have hmade : ∃ connection, (x.complete reusable hub).1 =
      { x with stage := .finished, channel := x.channel.complete, connection := connection } := by
    unfold complete
    dsimp only
    split
    · exact ⟨_, rfl⟩
    · exact ⟨none, rfl⟩
  obtain ⟨connection, hmade⟩ := hmade
  rw [hmade]
  exact ⟨fun _ => rfl, .completes (by simp only [receipt?, hs]) hfeed hreports
    (by simp only [offered, hs]) rfl rfl⟩

theorem passes_parse (hs : x.stage = .parsing plan r data) :
    x.Passes (.go quota) (x.parse plan r data hub).1 := by
  unfold parse
  rcases hf : r.parser.feed data with ⟨error | _ | ⟨head, bodiless⟩ | piece | trailers, q⟩
  · exact passes_fail rfl rfl (by simp [reports_of_error hs hf])
  · have hreports : x.reports (.go quota) = [] := reports_of_feed hs hf
    dsimp only
    split
    · exact passes_fail rfl rfl (by simp [hreports])
    · refine passes_within (by simp only [receipt?, hs]) rfl ⟨rfl, rfl, rfl⟩ (by simp)
        (fun _ => rfl) rfl (by simp [hreports]) (fun _ => ?_) rfl (told_of_feed hs hf)
      simp [hreports, offered, hs]
  · exact passes_answer hs hf
  · exact passes_takeChunk hs hf
  · exact passes_complete hs hf

theorem passes_offer {result : Exchange × Hub} (hs : x.stage = .offering plan r data)
    (h : x.offer plan r data hub = some result) : x.Passes (.go quota) result.1 := by
  have hreports := reports_of_stage (x := x) (by simp [hs]) (.go quota)
  have hpending : x.pending = [] := by simp only [pending, hs]
  unfold offer at h
  split at h
  · cases h
  · cases h
    exact passes_abandon rfl rfl (by simp [hreports])
  · next c hc =>
    cases h
    have hqueue := Channel.queue_of_send hc
    obtain ⟨queue, rfl⟩ := Channel.queue_of_sent hc
    refine passes_within (by simp only [receipt?, hs]) rfl ⟨rfl, rfl, rfl⟩ (by simp) (fun _ => rfl)
      rfl (by simp [hreports]) (fun _ => ?_) rfl fun heard log reports => ?_
    · simpa [hreports, offered, hs] using hqueue
    · simpa [hpending, hreports] using reports

/-- Every push passes on what there is of the body. -/
theorem passes_of_push {result : Exchange × Hub} (h : x.push m hub = some result) :
    x.Passes m result.1 := by
  cases m with
  | cancel cause =>
    simp only [push] at h
    split at h
    · cases h
    · next hf =>
      cases h
      rw [isFinished_iff] at hf
      simp only [cancel, x.isFinished_iff, hf, ite_false]
      exact passes_fail rfl rfl (by simp [Exchange.reports])
  | go quota =>
    simp only [push, step] at h
    cases hs : x.stage with
    | dispatched =>
      simp only [hs, Option.some.injEq] at h
      exact h ▸ passes_begin hs
    | acquiring plan a =>
      simp only [hs] at h
      exact passes_acquire hs h
    | securing plan =>
      simp only [hs, Option.some.injEq] at h
      exact h ▸ passes_secure hs
    | writing plan p =>
      simp only [hs, Option.some.injEq] at h
      exact h ▸ passes_write hs
    | reading plan r =>
      simp only [hs] at h
      exact passes_read hs h
    | parsing plan r data =>
      simp only [hs, Option.some.injEq] at h
      exact h ▸ passes_parse hs
    | offering plan r data =>
      simp only [hs] at h
      exact passes_offer hs h
    | finished => simp [hs] at h

end Passages

end Exchange
end HttpClient
