import HttpClient.Proofs.Url.Hosts
set_option autoImplicit false

/-!
The parts of URLs that were read. All of them are printable, so the text of a URL can stand in a
field; a port is never the one that the scheme implies; and no fragment begins within a domain.
-/

namespace HttpClient

open Text (Printable)

def UrlPath.Plain : UrlPath → Prop
  | .flat text => Printable text
  | .segments items => ∀ s ∈ items, Printable s

theorem UrlPath.Plain.printable_text {path : UrlPath} (h : path.Plain) : Printable path.text := by
  cases path with
  | flat text => exact h
  | segments items =>
    have hslash : Printable "/" := by decide
    induction items with
    | nil => simp [UrlPath.text]
    | cons item items ih =>
      obtain ⟨hitem, hitems⟩ := List.forall_mem_cons.1 h
      simpa [UrlPath.text, hslash, hitem] using ih hitems

namespace Url

structure Plain (u : Url) : Prop where
  scheme : Printable u.scheme
  username : Printable u.username
  password : ∀ s ∈ u.password, Printable s
  host : ∀ s ∈ u.host, Printable s
  domain : u.isSpecial = true → ∀ s ∈ u.host, '#' ∉ s.toList
  port : ∀ n ∈ u.port, defaultPort u.scheme ≠ some n
  path : u.path.Plain
  query : ∀ s ∈ u.query, Printable s
  fragment : ∀ s ∈ u.fragment, Printable s

/-- No fragment begins within the host, if the URL is one of those that connections are made to. -/
def Whole (u : Url) : Prop :=
  u.scheme = "http" ∨ u.scheme = "https" → ∀ host, u.host = some host → '#' ∉ host.toList

/-- A URL that was read, alone or relative to another one, and anything but its host may have been
changed since. -/
inductive Given : Url → Prop where
  | parse {text : String} {u : Url} (h : Url.parse text = .ok u) : Given u
  | join {base u : Url} {reference : String} (given : Given base)
      (h : base.join reference = .ok u) : Given u
  | withoutFragment {u : Url} (given : Given u) : Given u.withoutFragment
  | withoutCredentials {u : Url} (given : Given u) : Given u.withoutCredentials
  | addQuery {u : Url} (given : Given u) (pairs : List (String × String)) : Given (u.addQuery pairs)

variable {u v base : Url} {scheme : String} {cs : List Char}

theorem ok_of_bind {ε α β : Type} {x : Except ε α} {f : α → Except ε β} {b : β}
    (h : (x >>= f) = .ok b) : ∃ a, x = .ok a ∧ f a = .ok b := by
  cases x with
  | error e => cases h
  | ok a => exact ⟨a, rfl, h⟩

theorem printable_encode {escaped : Char → Bool} (cs : List Char)
    (h : ∀ c, Percent.control c = true → escaped c = true) :
    Printable (String.ofList (Percent.encode escaped cs)) :=
  Text.printable_ofList.2 (Percent.printable_encode fun c _ => h c)

theorem control_inQuery (c : Char) (h : Percent.control c = true) : Percent.inQuery c = true := by
  simp [Percent.inQuery, h]

theorem control_inPath (c : Char) (h : Percent.control c = true) : Percent.inPath c = true := by
  simp [Percent.inPath, control_inQuery c h]

theorem printable_readQuery (special : Bool) (cs : List Char) :
    Printable (readQuery special cs) := by
  refine printable_encode cs fun c h => ?_
  cases special
  · exact control_inQuery c h
  · simp [Percent.inSpecialQuery, control_inQuery c h]

theorem printable_readFragment (cs : List Char) : Printable (readFragment cs) :=
  printable_encode cs fun c h => by simp [Percent.inFragment, h]

theorem printable_readUserinfo (cs : List Char) :
    Printable (readUserinfo cs).1 ∧ ∀ s ∈ (readUserinfo cs).2, Printable s := by
  have hencode (cs : List Char) :
      Printable (String.ofList (Percent.encode Percent.inUserinfo cs)) :=
    printable_encode cs fun c h => by simp [Percent.inUserinfo, control_inPath c h]
  unfold readUserinfo
  dsimp only
  split
  · exact ⟨hencode _, by simp⟩
  · exact ⟨hencode _, by simp⟩
  · exact ⟨hencode _, by simpa using hencode _⟩

theorem port_readPort {port : Option Nat} (h : readPort scheme cs = .ok port) :
    ∀ n ∈ port, defaultPort scheme ≠ some n := by
  unfold readPort at h
  split at h
  · cases h
    simp
  · cases h
    simp
  split at h
  · cases h
  split at h
  · cases h
  cases h
  split
  · simp
  next hother =>
    intro n hn
    cases hn
    exact hother

theorem plain_walk {found : List String} (hfound : ∀ s ∈ found, Printable s)
    (segments : List (List Char)) : ∀ s ∈ walk found segments, Printable s := by
  induction segments generalizing found with
  | nil => exact hfound
  | cons segment rest ih =>
    have hending : ∀ s ∈ (if rest.isEmpty then [""] else [] : List String), Printable s := by
      split <;> simp
    rw [walk]
    split
    · exact ih (List.forall_mem_append.2
        ⟨fun s hs => hfound s (List.dropLast_subset _ hs), hending⟩)
    split
    · exact ih (List.forall_mem_append.2 ⟨hfound, hending⟩)
    · exact ih (List.forall_mem_append.2 ⟨hfound,
        List.forall_mem_singleton.2 (printable_encode segment control_inPath)⟩)

theorem plain_readPath (u : Url) (path : List Char) : (u.readPath path).Plain := by
  have hwalk (segments : List (List Char)) : ∀ s ∈ walk [] segments, Printable s :=
    plain_walk (by simp) segments
  unfold readPath
  split
  · split <;> simp [UrlPath.Plain]
  dsimp only
  split
  · split
    · simp [UrlPath.Plain]
    · exact fun s hs => hwalk _ s (List.dropWhile_subset _ hs)
  · exact hwalk _

theorem Plain.withPath (h : u.Plain) {path : UrlPath} (hpath : path.Plain) :
    Plain { u with path := path } :=
  { h with path := hpath }

theorem Plain.withTail (h : u.Plain) (query fragment : Option (List Char)) :
    (u.withTail query fragment).Plain :=
  { h with
    query := by simpa [Url.withTail] using fun q _ => printable_readQuery u.isSpecial q
    fragment := by simpa [Url.withTail] using fun f _ => printable_readFragment f }

theorem plain_readAuthority (hscheme : Printable scheme) (h : readAuthority scheme cs = .ok u) :
    u.Plain := by
  unfold readAuthority at h
  dsimp only at h
  split at h
  · cases h
  split at h
  · cases h
  have huser := printable_readUserinfo ((splitUserinfo cs).1.getD [])
  split at h
  · obtain ⟨host, hread, h⟩ := ok_of_bind h
    split at h
    · cases h
    obtain ⟨port, hport, h⟩ := ok_of_bind h
    cases h
    have hhost := Host.domainChar_readDomain hread
    exact ⟨hscheme, huser.1, huser.2, by simpa using Host.printable_of_domainChar hhost,
      by simpa using fun _ => Host.hash_not_mem_of_domainChar hhost, port_readPort hport,
      by simp [UrlPath.Plain], by simp, by simp⟩
  · next hforeign =>
    obtain ⟨host, hread, h⟩ := ok_of_bind h
    split at h
    · cases h
    obtain ⟨port, hport, h⟩ := ok_of_bind h
    cases h
    exact ⟨hscheme, huser.1, huser.2, by simpa using Host.printable_readForeign hread,
      fun hspecial => absurd hspecial hforeign, port_readPort hport, by simp [UrlPath.Plain],
      by simp, by simp⟩

theorem plain_readHierarchy (hscheme : Printable scheme) (h : readHierarchy scheme cs = .ok u) :
    u.Plain := by
  unfold readHierarchy at h
  dsimp only at h
  obtain ⟨v, hread, h⟩ := ok_of_bind h
  cases h
  exact ((plain_readAuthority hscheme hread).withPath (plain_readPath v _)).withTail _ _

theorem plain_bareFile {host : String} (h : ∀ c ∈ host.toList, Host.domainChar c = true) :
    Plain ⟨"file", "", none, some host, none, .segments [], none, none⟩ := by
  have hscheme : Printable "file" := by decide
  exact ⟨hscheme, Text.printable_empty, by simp, by simpa using Host.printable_of_domainChar h,
    by simpa using fun _ => Host.hash_not_mem_of_domainChar h, by simp, by simp [UrlPath.Plain],
    by simp, by simp⟩

theorem plain_readFile (h : readFile cs = .ok u) : u.Plain := by
  have hnone : ∀ c ∈ "".toList, Host.domainChar c = true := by simp
  unfold readFile at h
  dsimp only at h
  split at h
  · split at h
    · split at h
      · cases h
        refine ((plain_bareFile ?_).withPath (plain_readPath _ _)).withTail _ _
        split <;> exact hnone
      · obtain ⟨host, hread, h⟩ := ok_of_bind h
        cases h
        refine ((plain_bareFile ?_).withPath (plain_readPath _ _)).withTail _ _
        split
        · exact hnone
        · exact Host.domainChar_readDomain hread
    · cases h
      exact ((plain_bareFile hnone).withPath (plain_readPath _ _)).withTail _ _
  · cases h
    exact ((plain_bareFile hnone).withPath (plain_readPath _ _)).withTail _ _

theorem plain_readForeign (hscheme : Printable scheme) (cs : List Char) :
    (readForeign scheme cs).Plain := by
  unfold readForeign
  dsimp only
  refine Plain.withTail ⟨hscheme, Text.printable_empty, by simp, by simp, by simp, by simp, ?_,
    by simp, by simp⟩ _ _
  split
  · exact plain_walk (by simp) _
  · exact printable_encode _ fun _ h => h

theorem plain_readAbsolute (hscheme : Printable scheme) (h : readAbsolute scheme cs = .ok u) :
    u.Plain := by
  unfold readAbsolute at h
  split at h
  · exact plain_readFile h
  split at h
  · exact plain_readHierarchy hscheme h
  split at h
  · exact plain_readHierarchy hscheme h
  · cases h
    exact plain_readForeign hscheme _

theorem plain_readRelative (hbase : base.Plain) (h : base.readRelative cs = .ok u) : u.Plain := by
  have hfragment (fragment : Option (List Char)) :
      Plain { base with fragment := fragment.map readFragment } :=
    { hbase with fragment := by simpa using fun f _ => printable_readFragment f }
  unfold readRelative at h
  dsimp only at h
  split at h
  · split at h
    · cases h
      exact hfragment _
    · cases h
  next segments hsegments =>
  have hpath := hbase.path
  rw [hsegments] at hpath
  split at h
  · exact plain_readHierarchy hbase.scheme h
  split at h
  · split at h <;> cases h
    · exact hfragment _
    · exact hbase.withTail _ _
  · cases h
    refine (hbase.withPath ?_).withTail _ _
    split
    · exact plain_walk (by simp) _
    · exact plain_walk (fun s hs => hpath s (List.dropLast_subset _ hs)) _

theorem printable_splitScheme {rest : List Char} (h : splitScheme cs = some (scheme, rest)) :
    Printable scheme := by
  unfold splitScheme at h
  split at h
  · next name rest _ =>
    split at h
    · next hname =>
      cases h
      refine Text.printable_ofList.2 fun c hc => ?_
      obtain ⟨b, hb, rfl⟩ := List.mem_map.1 hc
      have hchar := List.all_eq_true.1 (Bool.and_eq_true_iff.1 hname).2 b hb
      refine Text.isPrintable_toLower ?_
      simp only [isSchemeChar, Bool.or_eq_true, beq_iff_eq] at hchar
      rcases hchar with ((halnum | rfl) | rfl) | rfl
      · exact Text.isPrintable_of_isAlphanum halnum
      all_goals decide
    · cases h
  · cases h

theorem printable_encodeForm (s : String) :
    ∀ c ∈ Percent.encodeForm s, Text.isPrintable c = true := by
  intro c hc
  obtain ⟨b, -, hc⟩ := List.mem_flatMap.1 hc
  split at hc
  · rw [List.mem_singleton.1 hc]
    decide
  · refine Percent.printable_encode (fun d _ hcontrol => ?_) c hc
    rw [Bool.not_eq_true', Bool.eq_false_iff]
    intro hmark
    have hprintable : Text.isPrintable d = true := by
      rw [Percent.unreserved, Bool.or_eq_true] at hmark
      rcases hmark with halnum | hmark
      · exact Text.isPrintable_of_isAlphanum halnum
      · have hmarks : Printable "*-._" := by decide
        exact List.all_eq_true.1 hmarks d (by simpa using hmark)
    rw [Text.isPrintable_iff] at hprintable
    simp only [Percent.control, Bool.or_eq_true, decide_eq_true_eq] at hcontrol
    omega

theorem printable_formPairs (pairs : List (String × String)) :
    ∀ c ∈ Percent.formPairs pairs, Text.isPrintable c = true := by
  refine Text.forall_mem_intercalate (List.all_eq_true.1 (by decide)) fun part hm => ?_
  obtain ⟨pair, -, rfl⟩ := List.mem_map.1 hm
  exact List.forall_mem_append.2 ⟨printable_encodeForm _,
    List.forall_mem_cons.2 ⟨by decide, printable_encodeForm _⟩⟩

theorem Plain.addQuery (h : u.Plain) (pairs : List (String × String)) :
    (u.addQuery pairs).Plain := by
  have hquery : Printable (u.query.getD "") := by
    cases hq : u.query with
    | none => exact Text.printable_empty
    | some q => exact h.query q hq
  refine { h with query := ?_ }
  rintro q hq
  cases hq
  refine Text.printable_ofList.2 (List.forall_mem_append.2
    ⟨List.forall_mem_append.2 ⟨List.all_eq_true.1 hquery, ?_⟩, printable_formPairs pairs⟩)
  split
  · simp
  · exact List.all_eq_true.1 (by decide)

theorem Given.plain (h : u.Given) : u.Plain := by
  induction h with
  | parse h =>
    unfold Url.parse at h
    split at h
    · next hscheme => exact plain_readAbsolute (printable_splitScheme hscheme) h
    · cases h
  | join _ h ih =>
    unfold Url.join at h
    dsimp only at h
    split at h
    · next hscheme =>
      split at h
      · exact plain_readRelative ih h
      · exact plain_readAbsolute (printable_splitScheme hscheme) h
    · exact plain_readRelative ih h
  | withoutFragment _ ih => exact { ih with fragment := by simp [Url.withoutFragment] }
  | withoutCredentials _ ih =>
    exact { ih with
      username := Text.printable_empty
      password := by simp [Url.withoutCredentials] }
  | addQuery _ pairs ih => exact ih.addQuery pairs

theorem Given.whole (h : u.Given) : u.Whole := by
  intro hscheme host hhost
  refine h.plain.domain ?_ host hhost
  rcases hscheme with hs | hs <;> simp [isSpecial, hs, isSpecialScheme, defaultPort]

theorem printable_elim {o : Option String} {mark : String} (hmark : Printable mark)
    (h : ∀ s ∈ o, Printable s) : Printable (o.elim "" (mark ++ ·)) := by
  cases o with
  | none => exact Text.printable_empty
  | some s => exact Text.printable_append.2 ⟨hmark, h s rfl⟩

theorem Plain.printable_userinfo (h : u.Plain) : Printable u.userinfo := by
  have hat : Printable "@" := by decide
  have hcolon : Printable ":" := by decide
  unfold userinfo
  split
  · exact Text.printable_empty
  · simp [h.username, printable_elim hcolon h.password, hat]

theorem Plain.printable_authorityText (h : u.Plain) : Printable u.authorityText := by
  have hslashes : Printable "//" := by decide
  have hport : Printable (u.port.elim "" fun port => ":" ++ Numeral.decimal port) := by
    have hcolon : Printable ":" := by decide
    cases u.port <;> simp [hcolon, Text.printable_decimal]
  unfold authorityText
  split
  · next host hhost => simp [hslashes, h.printable_userinfo, h.host host hhost, hport]
  · split <;> decide

theorem Plain.printable_text (h : u.Plain) : Printable u.text := by
  have hcolon : Printable ":" := by decide
  simp only [text, Text.printable_append]
  exact ⟨⟨⟨⟨⟨h.scheme, hcolon⟩, h.printable_authorityText⟩, h.path.printable_text⟩,
    printable_elim (by decide) h.query⟩, printable_elim (by decide) h.fragment⟩

end Url
end HttpClient
