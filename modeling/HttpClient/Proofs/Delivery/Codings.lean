import HttpClient.Proofs.Delivery.Decoding
import HttpClient.Proofs.Fields.Codings
set_option autoImplicit false

/-!
The body of an answer. If each decoder undoes its coding, then what the caller reads is the data
with the codings that the fields still list, and the fields list no other.
-/

namespace HttpClient

namespace ContentCoding

inductive Applied (encodes : ContentCoding → Bytes → Bytes → Prop) :
    List ContentCoding → Bytes → Bytes → Prop where
  | nil (data : Bytes) : Applied encodes [] data data
  | cons {c : ContentCoding} {cs : List ContentCoding} {plain between coded : Bytes}
      (first : encodes c plain between) (later : Applied encodes cs between coded) :
      Applied encodes (c :: cs) plain coded

/-- The codings as their decoders take them: the coded data is complete and holds the data. What a
coding without a decoder does is given. -/
def Encodes (other : String → Bytes → Bytes → Prop) : ContentCoding → Bytes → Bytes → Prop
  | .gzip, plain, coded => Wrapper.gzip.unwrap coded = (plain, .closed true 0)
  | .deflate, plain, coded => Wrapper.zlib.unwrap coded = (plain, .closed true 0)
  | .identity, plain, coded => coded = plain
  | .other name, plain, coded => other name plain coded

theorem undoes_of_encodes {other : String → Bytes → Bytes → Prop} {c : ContentCoding} {d : Decoder}
    {plain coded : Bytes} (hd : Decoder.ofCoding? c = some d) (h : Encodes other c plain coded) :
    d.Undoes coded plain := by
  cases c with
  | gzip =>
    cases hd
    exact Decoder.undoes_of_unwrap h
  | deflate =>
    cases hd
    exact Decoder.undoes_of_unwrap h
  | identity => cases hd
  | other name => cases hd

section Applied

variable {encodes : ContentCoding → Bytes → Bytes → Prop} {codings more : List ContentCoding}
  {plain coded : Bytes}

theorem applied_append : Applied encodes (codings ++ more) plain coded ↔
    ∃ between, Applied encodes codings plain between ∧ Applied encodes more between coded := by
  constructor
  · intro h
    induction codings generalizing plain with
    | nil => exact ⟨plain, .nil plain, h⟩
    | cons c codings ih =>
      cases h with
      | cons first later =>
        obtain ⟨between, hfront, hback⟩ := ih later
        exact ⟨between, .cons first hfront, hback⟩
  · rintro ⟨between, hfront, hback⟩
    induction hfront with
    | nil => exact hback
    | cons first later ih => exact .cons first (ih hback)

end Applied

end ContentCoding

namespace Decoder

theorem Chain.append {ds more : List Decoder} {coded between plain : Bytes}
    (h : Chain ds coded between) (h' : Chain more between plain) :
    Chain (ds ++ more) coded plain := by
  induction h with
  | nil => exact h'
  | cons head tail ih => exact .cons head (ih h')

theorem ofCoding?_of_mem {c : ContentCoding} (h : c ∈ supported) : ∃ d, ofCoding? c = some d := by
  cases c with
  | gzip => exact ⟨_, rfl⟩
  | deflate => exact ⟨_, rfl⟩
  | identity => simp [supported] at h
  | other name => simp [supported] at h

/-- The decoders of the codings that were taken off undo them, the last one first. -/
theorem chain_of_applied {encodes : ContentCoding → Bytes → Bytes → Prop}
    (identity : ∀ plain coded, encodes .identity plain coded → coded = plain)
    (inverse : ∀ c d plain coded, ofCoding? c = some d → encodes c plain coded →
      d.Undoes coded plain)
    {removed : List ContentCoding} {plain coded : Bytes}
    (h : ContentCoding.Applied encodes removed plain coded)
    (hr : ∀ c ∈ removed, ContentCoding.removable supported c = true) :
    Chain ((removed.reverse.filter (· != .identity)).filterMap ofCoding?) coded plain := by
  induction h with
  | nil data => exact .nil data
  | @cons c cs plain between coded first later ih =>
    obtain ⟨hc, hcs⟩ := List.forall_mem_cons.1 hr
    rw [List.reverse_cons, List.filter_append, List.filterMap_append]
    refine (ih hcs).append ?_
    rcases ContentCoding.removable_iff.1 hc with rfl | hmem
    · rw [identity plain between first]
      exact .nil plain
    · obtain ⟨d, hd⟩ := ofCoding?_of_mem hmem
      have hne : c ≠ .identity := by
        rintro rfl
        cases hd
      have hone : ([c].filter (· != .identity)).filterMap ofCoding? = [d] := by
        simp [hne, hd]
      rw [hone]
      exact .cons (inverse c d plain between hd first) (.nil plain)

end Decoder

namespace Answer

open ContentCoding

/-- The codings in front stay up to the last one that cannot be undone; those behind it go. -/
structure Parted (codings kept removed : List ContentCoding) : Prop where
  whole : codings = kept ++ removed
  removable : ∀ c ∈ removed, c = .identity ∨ c ∈ Decoder.supported
  stuck : ∀ c, kept.getLast? = some c → ¬(c = .identity ∨ c ∈ Decoder.supported)

/-- The fields list the codings that were kept, in one field if some were removed, and all other
fields are as they were. -/
structure Relisted (h h' : Fields) (kept removed : List ContentCoding) : Prop where
  untouched : removed = [] → h' = h
  unlisted : kept = [] → h'.contains "Content-Encoding" = false
  listed : removed ≠ [] → kept ≠ [] →
    ∃ value, h'.values "Content-Encoding" = [value] ∧ readList value = .ok kept
  others : h'.without "Content-Encoding" = h.without "Content-Encoding"

theorem exists_parted (codings : List ContentCoding) :
    ∃ kept removed, Parted codings kept removed ∧
      ContentCoding.split Decoder.supported codings =
        (removed.reverse.filter (· != .identity), kept) := by
  obtain ⟨removed, hwhole, hundone, hremovable, hstuck⟩ :=
    exists_removed Decoder.supported codings
  refine ⟨_, removed, ⟨hwhole, fun c hc => removable_iff.1 (hremovable c hc), fun c hc hr => ?_⟩,
    Prod.ext hundone rfl⟩
  have hstays := hstuck c hc
  rw [removable_iff.2 hr] at hstays
  cases hstays

variable {h : Fields} {codings kept removed undone : List ContentCoding}

theorem undoCodings_of_unlisted (h : Fields) (hc : h.contains "Content-Encoding" = false) :
    undoCodings h = .ok (h, []) := by
  have hvalues := (h.values_eq_nil_iff "Content-Encoding").2 hc
  simp only [undoCodings, ofFields, hvalues, List.isEmpty_nil, if_true]

theorem exists_relisted (listed : Listed h codings)
    (unlisted : codings = [] → h.contains "Content-Encoding" = false)
    (parted : Parted codings kept removed)
    (hsplit : ContentCoding.split Decoder.supported codings = (undone, kept))
    (hundone : removed = [] → undone = []) :
    ∃ h', undoCodings h = .ok (h', undone.filterMap Decoder.ofCoding?) ∧
      Relisted h h' kept removed := by
  have hwhole := parted.whole
  rcases eq_or_ne codings [] with hnone | hcodings
  · obtain ⟨rfl, rfl⟩ := List.append_eq_nil_iff.1 (hwhole.symm.trans hnone)
    rw [hundone rfl]
    exact ⟨h, undoCodings_of_unlisted h (unlisted hnone),
      ⟨fun _ => rfl, fun _ => unlisted hnone, by simp, rfl⟩⟩
  have hread := ofFields_of_listed listed hcodings
  rcases eq_or_ne removed [] with rfl | hremoved
  · rw [List.append_nil] at hwhole
    subst hwhole
    refine ⟨h, ?_, ⟨fun _ => rfl, fun hnil => absurd hnil hcodings, by simp, rfl⟩⟩
    rw [hundone rfl] at hsplit ⊢
    simp only [undoCodings, hread, hsplit, if_true, List.filterMap_nil]
  have hne : kept ≠ codings := by
    intro heq
    rw [heq] at hwhole
    exact hremoved (List.self_eq_append_right.1 hwhole)
  rcases eq_or_ne kept [] with rfl | hkept
  · refine ⟨h.without "Content-Encoding", ?_, ⟨fun hnil => absurd hnil hremoved,
      fun _ => h.contains_without_self _, fun _ hnil => absurd rfl hnil, h.without_without _⟩⟩
    simp only [undoCodings, hread, hsplit, hne, if_false, List.isEmpty_nil, if_true]
  · have hnames : ∀ c ∈ kept, Names c.name c := by
      intro c hc
      exact names_of_words listed c (hwhole ▸ List.mem_append_left _ hc)
    have htoken : isToken "Content-Encoding" = true := by decide
    have hvalid : Field.Valid ⟨"Content-Encoding", render kept⟩ := ⟨htoken, isValue_render hnames⟩
    obtain ⟨h', hset⟩ := h.exists_set hvalid
    refine ⟨h', ?_, ⟨fun hnil => absurd hnil hremoved, fun hnil => absurd hnil hkept, fun _ _ =>
      ⟨render kept, Fields.values_of_set hset, readList_render hnames hkept⟩,
      Fields.without_of_set hset⟩⟩
    simp only [undoCodings, hread, hsplit, hne, if_false, List.isEmpty_iff, hkept, hset]
    rfl

/-- An answer lists exactly the codings that are still on the data that its reader gives: those up
to the last one that cannot be undone. -/
theorem undoes_codings (encodes : ContentCoding → Bytes → Bytes → Prop)
    (identity : ∀ plain coded, encodes .identity plain coded → coded = plain)
    (inverse : ∀ c d plain coded, Decoder.ofCoding? c = some d → encodes c plain coded →
      d.Undoes coded plain)
    (h : Fields) (codings : List ContentCoding) (listed : Listed h codings)
    (unlisted : codings = [] → h.contains "Content-Encoding" = false) :
    ∃ kept removed h' decoders, Parted codings kept removed ∧
      undoCodings h = .ok (h', decoders) ∧ Relisted h h' kept removed ∧
      ∀ plain coded, Applied encodes codings plain coded →
        ∃ between, Applied encodes kept plain between ∧ Applied encodes removed between coded ∧
          Decoder.Recovers decoders coded between := by
  obtain ⟨kept, removed, parted, hsplit⟩ := exists_parted codings
  obtain ⟨h', hundo, relisted⟩ := exists_relisted listed unlisted parted hsplit
    (by rintro rfl; rfl)
  refine ⟨kept, removed, h', _, parted, hundo, relisted, fun plain coded happlied => ?_⟩
  rw [parted.whole, applied_append] at happlied
  obtain ⟨between, hkept, hgone⟩ := happlied
  have hchain := Decoder.chain_of_applied identity inverse hgone
    fun c hc => removable_iff.2 (parted.removable c hc)
  exact ⟨between, hkept, hgone, hchain.recovers⟩

theorem undoes_codings_brotli :
    let h : Fields := ⟨[⟨"Content-Encoding", "br, x-gzip"⟩, ⟨"Server", "a"⟩,
      ⟨"content-encoding", "identity ,Deflate"⟩]⟩
    let codings : List ContentCoding := [.other "br", .gzip, .identity, .deflate]
    let encodes := Encodes fun _ plain coded => coded = 0 :: plain
    let plain : Bytes := [104, 105]
    let coded : Bytes := [120, 1, 1, 26, 0, 229, 255, 31, 139, 8, 0, 0, 0, 0, 0, 0, 255, 1, 3, 0,
      252, 255, 0, 104, 105, 65, 225, 11, 102, 3, 0, 0, 0, 77, 187, 6, 24]
    Listed h codings ∧ Applied encodes codings plain coded ∧
      ∃ kept removed h' decoders, Parted codings kept removed ∧
        undoCodings h = .ok (h', decoders) ∧ Relisted h h' kept removed ∧
        ∃ between, Applied encodes kept plain between ∧ Applied encodes removed between coded ∧
          Decoder.Recovers decoders coded between := by
  intro h codings encodes plain coded
  have hwords : ((h.elements "Content-Encoding").filter fun e => !e.toList.isEmpty) =
      ["br", "x-gzip", "identity", "Deflate"] := by decide
  have listed : Listed h codings := by
    rw [Listed, hwords]
    exact .cons ⟨by decide, by decide, by decide⟩ (.cons ⟨by decide, .inr (by decide)⟩
      (.cons ⟨by decide, by decide⟩ (.cons ⟨by decide, by decide⟩ .nil)))
  have hgzip : Wrapper.gzip.unwrap ((coded.drop 7).take 26) = (0 :: plain, .closed true 0) := by
    decide +kernel
  have hzlib : Wrapper.zlib.unwrap coded = ((coded.drop 7).take 26, .closed true 0) := by
    decide +kernel
  have applied : Applied encodes codings plain coded :=
    .cons rfl (.cons hgzip (.cons rfl (.cons hzlib (.nil coded))))
  obtain ⟨kept, removed, h', decoders, parted, undone, relisted, recovers⟩ :=
    undoes_codings encodes (fun _ _ hid => hid) (fun _ _ _ _ => undoes_of_encodes) h codings
      listed (fun hnil => absurd hnil (List.cons_ne_nil _ _))
  exact ⟨listed, applied, kept, removed, h', decoders, parted, undone, relisted,
    recovers plain coded applied⟩

end Answer
end HttpClient
