import HttpClient.Tunnel
import HttpClient.Proofs.Response.Heads
set_option autoImplicit false

/-!
The negotiation of a tunnel, while the answer of the proxy comes in pieces. However it comes, the
outcome is the same; but the octets that are read together with the end of the head are lost to the
tunnel.
-/

namespace HttpClient

/-- Errors that differ at most in how much of a head had come when it was found too long. -/
inductive TunnelError.Like : TunnelError → TunnelError → Prop where
  | refl (error : TunnelError) : Like error error
  | malformed {error error' : ParseError} (like : error.Like error') :
      Like (.malformed error) (.malformed error')

namespace Tunnel

theorem ask_eq_ok {authority : String} {l m : Link} (h : ask authority l = .ok m) :
    ∃ data, RequestHead.encodeConnect authority = .ok data ∧
      m = { l with outbound := l.outbound ++ data } := by
  simp only [ask, request] at h
  cases hd : RequestHead.encodeConnect authority with
  | error cause =>
    rw [hd] at h
    cases h
  | ok data =>
    rw [hd] at h
    refine ⟨data, rfl, ?_⟩
    change (l.write data).mapError TunnelError.write = .ok m at h
    unfold Link.write at h
    split at h <;> cases h
    rfl

section Accept

variable {p q : Parser} {data : Bytes}

theorem ne_failed_of_head (hp : p.phase.part = .head) : p.phase ≠ .failed := by
  intro hf
  simp [hf, Phase.part] at hp

theorem drain_of_advance (hp : p.phase.part = .head) (data : Bytes) :
    p.drain data = (p.append data).events := by
  rw [Parser.drain, if_neg (ne_failed_of_head hp)]
  rfl

theorem accept_of_none (hp : p.phase.part = .head) (h : (p.append data).advance = (.ok none, q)) :
    accept p data = .ok (some q) := by
  simp only [accept, drain_of_advance hp, Parser.events_of_advance_none h, List.findSome?_nil]

theorem accept_of_error {error : ParseError} (hp : p.phase.part = .head)
    (h : (p.append data).advance = (.error error, q)) :
    accept p data = .error (.malformed error) := by
  simp only [accept, drain_of_advance hp, Parser.events_of_advance_error h, List.findSome?_nil]

theorem accept_of_head {head : ResponseHead} {bodiless : Bool} (hp : p.phase.part = .head)
    (h : (p.append data).advance = (.ok (some (.head head bodiless)), q)) :
    accept p data =
      if head.start.status = 200 then .ok none else .error (.status head.start.status) := by
  simp only [accept, drain_of_advance hp, Parser.events_of_advance_some h, Parser.Run.after,
    List.cons_append, List.findSome?_cons, status?]
  split <;> simp_all

/-- What a reader makes of octets is what it makes of more of them, unless the head goes on. -/
inductive Judged (p : Parser) (data more : Bytes) : Prop where
  | nothing {q : Parser} (now : accept p data = .ok (some q)) (part : q.phase.part = .head)
      (unended : (p.append data).awaited = none)
      (later : accept p (data ++ more) = accept q more)
  | tunnel {rest : Bytes} (now : accept p data = .ok none)
      (ends : (p.append data).awaited = some (200, rest))
      (later : accept p (data ++ more) = .ok none)
  | refused {error error' : TunnelError} (now : accept p data = .error error)
      (later : accept p (data ++ more) = .error error') (like : error.Like error')

theorem judged (hp : p.phase.part = .head) (data more : Bytes) : Judged p data more := by
  have hpart : (p.append data).phase.part = .head := hp
  cases Parser.foretells hpart more with
  | @nothing q now part unended later =>
    rw [Parser.append_append] at later
    refine .nothing (accept_of_none hp now) part unended ?_
    simp only [accept, drain_of_advance hp, drain_of_advance part, Parser.events_congr later]
  | @head head bodiless q now ends later =>
    rw [Parser.append_append] at later
    by_cases hs : head.start.status = 200
    · rw [hs] at ends
      exact .tunnel (by rw [accept_of_head hp now, if_pos hs]) ends
        (by rw [accept_of_head hp later, if_pos hs])
    · exact .refused (by rw [accept_of_head hp now, if_neg hs])
        (by rw [accept_of_head hp later, if_neg hs]) (.refl _)
  | fault now later like =>
    rw [Parser.append_append] at later
    exact .refused (accept_of_error hp now) (accept_of_error hp later) (.malformed like)

theorem accept_append (h : accept reader data = .ok (some p)) (more : Bytes) :
    accept reader (data ++ more) = accept p more := by
  cases judged (p := reader) rfl data more with
  | nothing now part unended later =>
    cases now.symm.trans h
    exact later
  | tunnel now => cases now.symm.trans h
  | refused now => cases now.symm.trans h

theorem unended_of_accept (h : accept reader data = .ok (some p)) :
    ResponseHead.final? data = none := by
  cases judged (p := reader) rfl data [] with
  | nothing now part unended => exact unended
  | tunnel now => cases now.symm.trans h
  | refused now => cases now.symm.trans h

theorem final?_of_accept (h : accept reader data = .ok none) :
    ∃ rest, ResponseHead.final? data = some (200, rest) := by
  cases judged (p := reader) rfl data [] with
  | nothing now => cases now.symm.trans h
  | tunnel now ends => exact ⟨_, ends⟩
  | refused now => cases now.symm.trans h

theorem accept_reader_nil : accept reader [] = .ok (some reader) := by
  have hmove : (reader.append []).move = .wait reader.phase := by
    rw [Parser.append_nil]
    exact Parser.settled_forMethod "CONNECT" .standard
  exact accept_of_none rfl (Parser.advance_of_wait hmove)

def endError : Ending → TunnelError
  | .closed => .closed
  | .broken => .read Link.broken

variable {l m : Link}

theorem step_of_quiet (p : Parser) (hi : l.inbound = []) (he : l.ending = none) :
    step p l = .wait := by
  simp [step, Link.read, hi, he]

theorem step_of_ended {ending : Ending} (p : Parser) (hi : l.inbound = [])
    (he : l.ending = some ending) : step p l = .fail (endError ending) l := by
  cases ending <;> simp [step, Link.read, hi, he, endError]

def Move.ofAccepted (l : Link) : Except TunnelError (Option Parser) → Move
  | .ok (some q) => .next q l
  | .ok none => .done l
  | .error error => .fail error l

theorem step_of_unread (p : Parser) (hi : l.inbound ≠ []) :
    step p l = .ofAccepted { l with inbound := l.inbound.drop readSize }
      (accept p (l.inbound.take readSize)) := by
  have hread : l.read readSize = (some (.ok (l.inbound.take readSize)),
      { l with inbound := l.inbound.drop readSize }) := by
    simp [Link.read, hi]
  have hsome : l.inbound.take readSize ≠ [] := by
    simp [readSize, hi]
  simp only [step, hread]
  rcases accept p (l.inbound.take readSize) with error | _ | q <;> rfl

/-- The octets that a step takes off a link are those that it accepts. -/
theorem step_cases (p : Parser) (l : Link) :
    step p l = .wait ∨ (∃ ending, step p l = .fail (endError ending) l) ∨
      ∃ data rest, data ≠ [] ∧ l.inbound = data ++ rest ∧
        step p l = .ofAccepted { l with inbound := rest } (accept p data) := by
  by_cases hi : l.inbound = []
  · cases he : l.ending with
    | none => exact .inl (step_of_quiet p hi he)
    | some ending => exact .inr (.inl ⟨ending, step_of_ended p hi he⟩)
  · exact .inr (.inr ⟨_, _, by simp [readSize, hi],
      (List.take_append_drop readSize l.inbound).symm, step_of_unread p hi⟩)

theorem taken_of_step (answer : Option Parser) (h : step p l = .ofAccepted m (.ok answer)) :
    ∃ data rest, data ≠ [] ∧ l.inbound = data ++ rest ∧ m = { l with inbound := rest } ∧
      accept p data = .ok answer := by
  rcases step_cases p l with hw | ⟨ending, hf⟩ | ⟨data, rest, hsome, hinbound, hstep⟩
  · cases answer <;> cases h.symm.trans hw
  · cases answer <;> cases h.symm.trans hf
  · refine ⟨data, rest, hsome, hinbound, ?_⟩
    rw [h] at hstep
    rcases hq : accept p data with error | _ | q <;> rw [hq] at hstep <;>
      cases answer <;> cases hstep <;> exact ⟨rfl, rfl⟩

end Accept

inductive Outcome where
  | waiting (parser : Parser)
  | done
  | failed (error : TunnelError)
  deriving DecidableEq

inductive Outcome.Like : Outcome → Outcome → Prop where
  | refl (outcome : Outcome) : Like outcome outcome
  | failed {error error' : TunnelError} (like : error.Like error') :
      Like (.failed error) (.failed error')

def Outcome.ofAccepted : Except TunnelError (Option Parser) → Outcome
  | .ok (some p) => .waiting p
  | .ok none => .done
  | .error error => .failed error

structure Negotiation where
  outcome : Outcome
  link : Link
  reads : List Bytes
  deriving DecidableEq

/-- The proxy sends and ends when it likes, and reads come when they like. -/
inductive Turn where
  | arrive (data : Bytes)
  | finish (ending : Ending)
  | read

def Turn.far (t : Turn) (l : Link) : Link :=
  match t with
  | .arrive data => l.deliver data
  | .finish ending => l.finish ending
  | .read => l

theorem Turn.far_of_ended {l : Link} {ending : Ending} (h : l.ending = some ending) (t : Turn) :
    t.far l = l := by
  cases t with
  | arrive data => simp [far, Link.deliver, h]
  | finish other => cases l; cases h; rfl
  | read => rfl

/-- The link as it would be if nothing had been read on it: all that came is still there. -/
def Turn.unread (turns : List Turn) (l : Link) : Link := turns.foldl (fun l t => t.far l) l

namespace Negotiation

def start (authority : String) (l : Link) : Negotiation :=
  match ask authority l with
  | .error error => ⟨.failed error, l, []⟩
  | .ok l => ⟨.waiting reader, l, []⟩

def read (n : Negotiation) : Negotiation :=
  match n.outcome with
  | .waiting p =>
    let reads := n.reads ++ [n.link.inbound.take readSize]
    match step p n.link with
    | .wait => n
    | .next q l => ⟨.waiting q, l, reads⟩
    | .done l => ⟨.done, l, reads⟩
    | .fail error l => ⟨.failed error, l, reads⟩
  | _ => n

/-- What comes after the end of the negotiation is left for others to read. -/
def turn (n : Negotiation) : Turn → Negotiation
  | .read => n.read
  | t => { n with link := t.far n.link }

def run (n : Negotiation) (turns : List Turn) : Negotiation := turns.foldl turn n

def Settled (n : Negotiation) : Prop :=
  match n.outcome with
  | .waiting _ => n.link.inbound = [] ∧ n.link.ending = none
  | _ => True

section Read

variable {n : Negotiation} {p : Parser}

theorem read_of_decided (h : ∀ p, n.outcome ≠ .waiting p) : n.read = n := by
  unfold read
  split
  · next p hp => exact absurd hp (h p)
  · rfl

theorem read_of_quiet (hp : n.outcome = .waiting p) (hi : n.link.inbound = [])
    (he : n.link.ending = none) : n.read = n := by
  simp only [read, hp, step_of_quiet p hi he]

theorem read_of_ended {ending : Ending} (hp : n.outcome = .waiting p) (hi : n.link.inbound = [])
    (he : n.link.ending = some ending) :
    n.read = ⟨.failed (endError ending), n.link, n.reads ++ [[]]⟩ := by
  simp only [read, hp, step_of_ended p hi he, hi, List.take_nil]

theorem read_of_unread (hp : n.outcome = .waiting p) (hi : n.link.inbound ≠ []) :
    n.read = ⟨.ofAccepted (accept p (n.link.inbound.take readSize)),
      { n.link with inbound := n.link.inbound.drop readSize },
      n.reads ++ [n.link.inbound.take readSize]⟩ := by
  simp only [read, hp, step_of_unread p hi]
  rcases accept p (n.link.inbound.take readSize) with error | _ | q <;> rfl

end Read

/-- How the outcome hangs on what was read. -/
def Standing (n : Negotiation) : Prop :=
  match n.outcome with
  | .waiting p => accept reader n.reads.flatten = .ok (some p)
  | .done => accept reader n.reads.flatten = .ok none ∧
      ∃ before last p, n.reads = before ++ [last] ∧ accept reader before.flatten = .ok (some p)
  | .failed error => accept reader n.reads.flatten = .error error ∨
      ∃ p ending, accept reader n.reads.flatten = .ok (some p) ∧ n.link.inbound = [] ∧
        n.link.ending = some ending ∧ error = endError ending

structure Sound (far : Link) (n : Negotiation) : Prop where
  stream : far.inbound = n.reads.flatten ++ n.link.inbound
  ending : far.ending = n.link.ending
  standing : n.Standing

/-- What the outcome comes to, if this is all that the proxy sends. -/
def verdict (far : Link) : Outcome :=
  match accept reader far.inbound, far.ending with
  | .ok (some _), some ending => .failed (endError ending)
  | accepted, _ => .ofAccepted accepted

section Sound

variable {far : Link} {n : Negotiation} {p : Parser}

theorem standing_of_accepted (hs : n.Standing) (hp : n.outcome = .waiting p) (data : Bytes)
    (l : Link) : Standing ⟨.ofAccepted (accept p data), l, n.reads ++ [data]⟩ := by
  simp only [Standing, hp] at hs
  have hmore : accept reader (n.reads ++ [data]).flatten = accept p data := by
    rw [List.flatten_append, List.flatten_singleton, accept_append hs]
  unfold Standing
  rcases hq : accept p data with error | _ | q
  · exact .inl (hmore.trans hq)
  · exact ⟨hmore.trans hq, n.reads, data, p, rfl, hs⟩
  · exact hmore.trans hq

theorem sound_read (h : Sound far n) : Sound far n.read := by
  cases hp : n.outcome with
  | waiting p =>
    by_cases hi : n.link.inbound = []
    · cases he : n.link.ending with
      | none => rwa [read_of_quiet hp hi he]
      | some ending =>
        have hs := h.standing
        simp only [Standing, hp] at hs
        rw [read_of_ended hp hi he]
        refine ⟨by simp [h.stream], h.ending, ?_⟩
        exact .inr ⟨p, ending, by simpa using hs, hi, he, rfl⟩
    · rw [read_of_unread hp hi]
      exact ⟨by simp [h.stream], h.ending, standing_of_accepted h.standing hp _ _⟩
  | done => rwa [read_of_decided (by simp [hp])]
  | failed error => rwa [read_of_decided (by simp [hp])]

theorem standing_of_far (hs : n.Standing) (t : Turn) :
    Standing { n with link := t.far n.link } := by
  unfold Standing at hs ⊢
  dsimp only
  split at hs
  · exact hs
  · exact hs
  · rcases hs with hs | ⟨p, ending, hs, hi, he, herror⟩
    · exact .inl hs
    · exact .inr ⟨p, ending, hs, by rw [t.far_of_ended he]; exact hi,
        by rw [t.far_of_ended he]; exact he, herror⟩

theorem sound_far (h : Sound far n) (t : Turn) :
    Sound (t.far far) { n with link := t.far n.link } := by
  have hstream := h.stream
  have hending := h.ending
  cases he : n.link.ending with
  | some ending =>
    rw [t.far_of_ended (hending.trans he)]
    refine ⟨?_, ?_, standing_of_far h.standing t⟩
    · rw [t.far_of_ended he]; exact hstream
    · rw [t.far_of_ended he]; exact hending
  | none =>
    rw [he] at hending
    refine ⟨?_, ?_, standing_of_far h.standing t⟩
    · cases t <;> simp [Turn.far, Link.deliver, Link.finish, hending, he, hstream]
    · cases t <;> simp [Turn.far, Link.deliver, Link.finish, hending, he]

theorem sound_turn (h : Sound far n) (t : Turn) : Sound (t.far far) (n.turn t) := by
  cases t with
  | read => exact sound_read h
  | arrive data => exact sound_far h (.arrive data)
  | finish ending => exact sound_far h (.finish ending)

theorem sound_run (h : Sound far n) (turns : List Turn) :
    Sound (Turn.unread turns far) (n.run turns) := by
  induction turns generalizing far n with
  | nil => exact h
  | cons t turns ih => exact ih (sound_turn h t)

theorem like_verdict (h : Sound far n) (hn : n.Settled) : n.outcome.Like (verdict far) := by
  have hs := h.standing
  unfold Standing at hs
  unfold Settled at hn
  split at hs
  · next p hp =>
    simp only [hp] at hn
    have hall : far.inbound = n.reads.flatten := by rw [h.stream, hn.1, List.append_nil]
    rw [hp, verdict, hall, hs, h.ending, hn.2]
    exact .refl _
  · next hp =>
    cases judged (p := reader) rfl n.reads.flatten n.link.inbound with
    | nothing now => cases now.symm.trans hs.1
    | tunnel now ends later =>
      rw [hp, verdict, h.stream, later]
      exact .refl _
    | refused now => cases now.symm.trans hs.1
  · next error hp =>
    rcases hs with hs | ⟨p, ending, hs, hi, he, rfl⟩
    · cases judged (p := reader) rfl n.reads.flatten n.link.inbound with
      | nothing now => cases now.symm.trans hs
      | tunnel now => cases now.symm.trans hs
      | refused now later like =>
        cases now.symm.trans hs
        rw [hp, verdict, h.stream, later]
        exact .failed like
    · rw [hp, verdict, h.stream, hi, List.append_nil, hs, h.ending, he]
      exact .refl _

theorem tail_of_done (h : Sound far n) (hn : n.outcome = .done) :
    ∃ head tail lost before last, far.inbound = head ++ tail ∧
      ResponseHead.final? far.inbound = some (200, tail) ∧
      n.reads = before ++ [last] ∧ before.flatten.length < head.length ∧
      n.reads.flatten = head ++ lost ∧ tail = lost ++ n.link.inbound := by
  have hs := h.standing
  simp only [Standing, hn] at hs
  obtain ⟨hdone, before, last, p, hreads, hbefore⟩ := hs
  obtain ⟨lost, hlost⟩ := final?_of_accept hdone
  obtain ⟨head, hhead, -⟩ := ResponseHead.finalAfter_of_rest hlost
  have hflat : n.reads.flatten = before.flatten ++ last := by simp [hreads]
  have hlength : lost.length < last.length :=
    ResponseHead.length_of_final? (unended_of_accept hbefore) (hflat ▸ hlost)
  refine ⟨head, lost ++ n.link.inbound, lost, before, last, ?_, ?_, hreads, ?_, hhead, rfl⟩
  · rw [h.stream, hhead, List.append_assoc]
  · rw [h.stream]
    exact ResponseHead.final?_append hlost _
  · have := congrArg List.length (hflat.symm.trans hhead)
    simp only [List.length_append] at this
    omega

end Sound

theorem read_of_settled {n : Negotiation} (h : n.Settled) : n.read = n := by
  unfold Settled at h
  split at h
  · next p hp => exact read_of_quiet hp h.1 h.2
  · next hn => exact read_of_decided hn

theorem progress_of_read (n : Negotiation) :
    n.read.Settled ∨ n.read.link.inbound.length < n.link.inbound.length := by
  by_cases hn : n.Settled
  · exact .inl (by rwa [read_of_settled hn])
  unfold Settled at hn
  split at hn
  · next p hp =>
    by_cases hi : n.link.inbound = []
    · cases he : n.link.ending with
      | none => exact absurd ⟨hi, he⟩ hn
      | some ending =>
        rw [read_of_ended hp hi he]
        exact .inl trivial
    · rw [read_of_unread hp hi]
      have := List.length_pos_iff.2 hi
      exact .inr (by simp only [List.length_drop, readSize]; omega)
  · exact absurd trivial hn

theorem run_of_settled {n : Negotiation} (h : n.Settled) (k : Nat) :
    n.run (List.replicate k .read) = n := by
  induction k with
  | zero => rfl
  | succ k ih =>
    have hread : n.turn .read = n := read_of_settled h
    rw [List.replicate_succ, run, List.foldl_cons, hread]
    exact ih

theorem settled_of_reads (n : Negotiation) (k : Nat) (hk : n.link.inbound.length < k) :
    (n.run (List.replicate k .read)).Settled := by
  induction k generalizing n with
  | zero => omega
  | succ k ih =>
    have hrun : n.run (List.replicate (k + 1) .read) = n.read.run (List.replicate k .read) := rfl
    rw [hrun]
    rcases progress_of_read n with hs | hlt
    · rwa [run_of_settled hs]
    · exact ih n.read (by omega)

theorem outcome_run_of_failed {n : Negotiation} {error : TunnelError}
    (h : n.outcome = .failed error) (turns : List Turn) :
    (n.run turns).outcome = .failed error := by
  induction turns generalizing n with
  | nil => exact h
  | cons t turns ih =>
    refine ih (n := n.turn t) ?_
    cases t with
    | read =>
      have hread : n.turn .read = n := read_of_decided (by simp [h])
      rwa [hread]
    | arrive data => exact h
    | finish ending => exact h

theorem start_of_error {authority : String} {l : Link} {error : TunnelError}
    (h : ask authority l = .error error) : start authority l = ⟨.failed error, l, []⟩ := by
  unfold start
  generalize ask authority l = asked at h
  subst h
  rfl

theorem start_of_ok {authority : String} {l m : Link} (h : ask authority l = .ok m) :
    start authority l = ⟨.waiting reader, m, []⟩ := by
  unfold start
  generalize ask authority l = asked at h
  subst h
  rfl

theorem sound_start {authority : String} {l m : Link} (h : ask authority l = .ok m) :
    Sound l (start authority l) := by
  obtain ⟨data, -, rfl⟩ := ask_eq_ok h
  rw [start_of_ok h]
  exact ⟨rfl, rfl, by simpa only [Standing, List.flatten_nil] using accept_reader_nil⟩

/-- What a negotiation comes to, if this is all that comes from the proxy. -/
def result (authority : String) (l far : Link) : Outcome :=
  match ask authority l with
  | .error error => .failed error
  | .ok _ => verdict far

/-- However the answer of the proxy is cut into reads, the outcome is the same, and the tunnel
begins with the first octet after the final head exactly if a read ends with that head. -/
theorem keeps_tail_iff (authority : String) (l : Link) (turns : List Turn) :
    let n := (start authority l).run turns
    let far := Turn.unread turns l
    (n.outcome = .done → ∃ head tail lost before last, far.inbound = head ++ tail ∧
      ResponseHead.final? far.inbound = some (200, tail) ∧
      n.reads = before ++ [last] ∧ before.flatten.length < head.length ∧
      n.reads.flatten = head ++ lost ∧ tail = lost ++ n.link.inbound ∧
      (n.link.inbound = tail ↔ n.reads.flatten = head)) ∧
    (n.Settled → n.outcome.Like (result authority l far)) ∧
    (n.run (List.replicate (n.link.inbound.length + 1) .read)).Settled := by
  refine ⟨fun hn => ?_, fun hn => ?_, settled_of_reads _ _ (Nat.lt_succ_self _)⟩
  · cases ha : ask authority l with
    | error error =>
      have hstart : (start authority l).outcome = .failed error := by rw [start_of_error ha]
      rw [outcome_run_of_failed hstart turns] at hn
      cases hn
    | ok m =>
      obtain ⟨head, tail, lost, before, last, hfar, hfinal, hreads, hlt, hflat, htail⟩ :=
        tail_of_done (sound_run (sound_start ha) turns) hn
      refine ⟨head, tail, lost, before, last, hfar, hfinal, hreads, hlt, hflat, htail, ?_⟩
      rw [htail, hflat, List.self_eq_append_left, List.append_right_eq_self]
  · unfold result
    cases ha : ask authority l with
    | error error =>
      have hstart : (start authority l).outcome = .failed error := by rw [start_of_error ha]
      rw [outcome_run_of_failed hstart turns]
      exact .refl _
    | ok m => exact like_verdict (sound_run (sound_start ha) turns) hn

/-- A first octet from the origin that comes in a read of its own is kept. -/
theorem keeps_tail_greeting :
    let turns := [.arrive (Bytes.ofText "HTTP/1.1 200 OK\r\n\r\n"), .read, .arrive [88]]
    let n := (start "h.example:443" (.dialed "proxy.example:3128")).run turns
    let far := Turn.unread turns (.dialed "proxy.example:3128")
    n.outcome = .done ∧ n.link.inbound = [88] ∧
      ResponseHead.final? far.inbound = some (200, [88]) ∧
      far.inbound = n.reads.flatten ++ [88] := by
  intro turns n far
  have hn : n.outcome = .done := by decide +kernel
  have hinbound : n.link.inbound = [88] := by decide +kernel
  have hends : ResponseHead.final? far.inbound = some (200, [88]) := by decide +kernel
  obtain ⟨head, tail, lost, before, last, hfar, hfinal, -, -, -, -, hkept⟩ :=
    (keeps_tail_iff "h.example:443" (.dialed "proxy.example:3128") turns).1 hn
  cases hends.symm.trans hfinal
  exact ⟨hn, hinbound, hends, by rw [hkept.1 hinbound]; exact hfar⟩

/-- In the same read as the head it is lost, though the proxy sends the same. -/
theorem tail_lost : ¬ ∀ (authority : String) (l : Link) (turns : List Turn),
    ((start authority l).run turns).outcome = .done →
      ∃ status, ResponseHead.final? (Turn.unread turns l).inbound =
        some (status, ((start authority l).run turns).link.inbound) := by
  intro h
  obtain ⟨status, hlost⟩ := h "h.example:443" (.dialed "proxy.example:3128")
    [.arrive (Bytes.ofText "HTTP/1.1 200 OK\r\n\r\nX"), .read] (by decide +kernel)
  have hfinal : ResponseHead.final? (Turn.unread
      [.arrive (Bytes.ofText "HTTP/1.1 200 OK\r\n\r\nX"), .read]
      (.dialed "proxy.example:3128")).inbound = some (200, [88]) := by decide +kernel
  have hinbound : ((start "h.example:443" (.dialed "proxy.example:3128")).run
      [.arrive (Bytes.ofText "HTTP/1.1 200 OK\r\n\r\nX"), .read]).link.inbound = [] := by
    decide +kernel
  rw [hfinal, hinbound] at hlost
  cases hlost

end Negotiation

end Tunnel
end HttpClient
