import Blacklink.Xml.Processing

/-!
# Input given in several buffers

When `process` ends, and when the calls of the `CallBack` and the exceptions do not depend on how
the input is cut into buffers (`client/SimpleXMLReader.cpp:711-726`).
-/

namespace Blacklink.Xml

open Blacklink.Base Blacklink.Text

/-! ### The end of `process` -/

/-- The characters at hand end within an entity reference of the encoding value. -/
def EndsInReference (T : Charsets) (r : Reader) : Prop := ∃ w, Reaches T r w ∧ Stuck w

theorem not_throws_of_stuck {T : Charsets} {w : Reader} (h : Stuck w) :
    ¬ (tick T w = .fail ∨ Cut w) := by
  rintro (hfail | ⟨-, -, hcut⟩)
  · rw [tick_of_stuck h] at hfail
    cases hfail
  · have hlen := h.2.2.1
    simp only [charRefCut, Bool.and_eq_true, decide_eq_true_eq] at hcut
    omega

/-- `process` ends unless the characters at hand end within an entity reference of the encoding
value. -/
theorem process_halts_iff (T : Charsets) (r : Reader) :
    Halts (process T) r ↔ ¬ EndsInReference T r := by
  obtain ⟨w, hw, hrest⟩ := (machine T).exists_rests r
  by_cases hr : r.state = .end_
  · have hhalts : Halts (process T) r := by
      exact ⟨_, Ends.done ⟨0, if_pos hr⟩⟩
    refine iff_of_true hhalts ?_
    rintro ⟨v, hv, hstuck⟩
    have hwait : (machine T).tick r = .wait := by
      change tick T r = .wait
      rw [tick, hr]
    have heq : r = v := Incremental.Reaches.rest_unique (.refl r) hv
      (Incremental.rests_of_wait hwait) (Incremental.rests_of_wait (tick_of_stuck hstuck))
    rw [← heq, Stuck, hr] at hstuck
    simp at hstuck
  · have hstuck : EndsInReference T r ↔ Stuck w := by
      constructor
      · rintro ⟨v, hv, hstuck⟩
        rwa [hv.rest_unique hw (Incremental.rests_of_wait (tick_of_stuck hstuck)) hrest] at hstuck
      · exact fun h => ⟨w, hw, h⟩
    rw [hstuck]
    rcases process_spec T hr hw hrest with ⟨hfail, e, he⟩ | ⟨hs, hhalts⟩ | ⟨-, -, hs, r', he, -⟩
    · exact iff_of_true ⟨_, he⟩ fun hs => not_throws_of_stuck hs hfail
    · exact iff_of_false hhalts (not_not_intro hs)
    · exact iff_of_true ⟨_, he⟩ hs

/-- Conversions that leave the text as it is. -/
def plainCharsets : Charsets := ⟨id, fun _ => charsetUtf8, fun s _ => s⟩

/-- A declaration whose encoding begins with an entity reference, of which only the `&` is there. -/
theorem process_not_halts_encoding :
    ¬ Halts (process plainCharsets)
      (Reader.new.feed (ascii "<?xml version=\"1.0\" encoding=\"&")) := by
  have hreach : (machine plainCharsets).Reaches
      (Reader.new.feed (ascii "<?xml version=\"1.0\" encoding=\"&")) _ :=
    Incremental.reaches_after 10 _
  have hstuck : Stuck ((machine plainCharsets).after 10
      (Reader.new.feed (ascii "<?xml version=\"1.0\" encoding=\"&"))) := by decide
  rcases process_spec plainCharsets (by decide) hreach
    (Incremental.rests_of_wait (tick_of_stuck (T := plainCharsets) hstuck)) with
    ⟨hfail, -⟩ | ⟨-, hhalts⟩ | ⟨-, -, hs, -⟩
  · exact absurd hfail (not_throws_of_stuck hstuck)
  · exact hhalts
  · exact absurd hstuck hs

/-! ### Input in several buffers -/

/-- Calls of `parse`, up to one that throws. -/
def parseAll (T : Charsets) : List (List UInt8) → Nat → Reader → Option Outcome
  | [], _, r => some (.ok (true, r))
  | data :: rest, fuel, r =>
    match parse T data fuel r with
    | none => none
    | some (.error e) => some (.error e)
    | some (.ok (_, r')) => parseAll T rest fuel r'

/-- What a caller sees: whether there has been no exception, and the calls of the `CallBack`. -/
def observed : Outcome → Bool × List Event
  | .error (_, events) => (false, events)
  | .ok (_, r) => (true, r.events)

/-- With fuel enough, this is what a caller sees. -/
def Shows (f : Nat → Reader → Option Outcome) (r : Reader) (seen : Bool × List Event) : Prop :=
  ∃ outcome, Ends f r outcome ∧ observed outcome = seen

/-- The input in these buffers and the input in one buffer look the same to a caller. -/
def SameShown (T : Charsets) (r : Reader) (buffers : List (List UInt8)) : Prop :=
  ∀ seen, Shows (parseAll T buffers) r seen ↔ Shows (parse T buffers.flatten) r seen

/-- No entity reference of the encoding value and no character reference is cut behind this
input. -/
def CleanCut (T : Charsets) (r : Reader) (data : List UInt8) : Prop :=
  ∀ w, Reaches T (r.feed data) w → tick T w = .wait → ¬ Cut w ∧ ¬ Stuck w

section Shown

variable {T : Charsets}

theorem fuelMono_parse (data : List UInt8) : FuelMono (parse T data) :=
  fun _ _ _ _ hmn h => fuelMono_process T hmn h

theorem fuelMono_parseAll (buffers : List (List UInt8)) : FuelMono (parseAll T buffers) := by
  induction buffers with
  | nil =>
    intro m n r x _ h
    exact h
  | cons data rest ih =>
    intro m n r x hmn h
    rw [parseAll] at h ⊢
    cases hp : parse T data m r with
    | none =>
      rw [hp] at h
      cases h
    | some outcome =>
      rw [hp] at h
      rw [fuelMono_parse data hmn hp]
      cases outcome with
      | error e => exact h
      | ok p => exact ih hmn h

theorem Shows.unique {f : Nat → Reader → Option Outcome} (hf : FuelMono f) {r : Reader}
    {x y : Bool × List Event} (hx : Shows f r x) (hy : Shows f r y) : x = y := by
  obtain ⟨a, ha, rfl⟩ := hx
  obtain ⟨b, hb, rfl⟩ := hy
  rw [ha.unique hf hb]

/-- What a caller sees of a reader at rest. -/
def verdict (T : Charsets) (w : Reader) : Option (Bool × List Event) :=
  if tick T w = .fail ∨ Cut w then some (false, w.events)
  else if Stuck w then none
  else some (true, w.events)

/-- What a caller sees of `parse`. -/
theorem shows_parse_iff {r w : Reader} {data : List UInt8} (hr : r.state ≠ .end_)
    (hw : Reaches T (r.feed data) w) (hrest : (machine T).Rests w) (seen : Bool × List Event) :
    Shows (parse T data) r seen ↔ verdict T w = some seen := by
  have hunique : ∀ x, Shows (parse T data) r x → (Shows (parse T data) r seen ↔ x = seen) := by
    intro x hx
    constructor
    · exact fun h => hx.unique (fuelMono_parse data) h
    · rintro rfl
      exact hx
  rcases process_spec T (r := r.feed data) hr hw hrest with
    ⟨hfail, e, n, hn⟩ | ⟨hstuck, hhalts⟩ | ⟨hwait, hcut, hstuck, r', ⟨n, hn⟩, -, -, hev⟩
  · rw [verdict, if_pos hfail, Option.some.injEq]
    exact hunique _ ⟨_, ⟨n, hn⟩, rfl⟩
  · rw [verdict, if_neg (not_throws_of_stuck hstuck), if_pos hstuck]
    refine iff_of_false ?_ (by simp)
    rintro ⟨outcome, ⟨n, hn⟩, -⟩
    exact hhalts ⟨outcome, n, hn⟩
  · have hthrow : ¬ (tick T w = .fail ∨ Cut w) := by
      rintro (hfail | h)
      · rw [hwait] at hfail
        cases hfail
      · exact hcut h
    rw [verdict, if_neg hthrow, if_neg hstuck, Option.some.injEq]
    refine hunique _ ⟨_, ⟨n, hn⟩, ?_⟩
    rw [← hev]
    rfl

/-- A buffer that is taken, then the others. -/
theorem shows_parseAll_cons {r r' : Reader} {data : List UInt8} {rest : List (List UInt8)}
    {b : Bool} (h : Ends (parse T data) r (.ok (b, r'))) (seen : Bool × List Event) :
    Shows (parseAll T (data :: rest)) r seen ↔ Shows (parseAll T rest) r' seen := by
  obtain ⟨m, hm⟩ := h
  constructor
  · rintro ⟨outcome, ⟨n, hn⟩, hseen⟩
    rw [parseAll] at hn
    cases hp : parse T data n r with
    | none =>
      rw [hp] at hn
      cases hn
    | some out =>
      have heq : out = .ok (b, r') := Ends.unique (fuelMono_parse data) ⟨n, hp⟩ ⟨m, hm⟩
      rw [hp, heq] at hn
      exact ⟨outcome, ⟨n, hn⟩, hseen⟩
  · rintro ⟨outcome, ⟨n, hn⟩, hseen⟩
    refine ⟨outcome, ⟨max m n, ?_⟩, hseen⟩
    rw [parseAll, fuelMono_parse data (Nat.le_max_left m n) hm]
    exact fuelMono_parseAll rest (Nat.le_max_right m n) hn

/-- A buffer at which `parse` throws is the last. -/
theorem shows_parseAll_error {r : Reader} {data : List UInt8} {rest : List (List UInt8)}
    {e : XmlError × List Event} (h : Ends (parse T data) r (.error e)) (seen : Bool × List Event) :
    Shows (parseAll T (data :: rest)) r seen ↔ (false, e.2) = seen := by
  obtain ⟨m, hm⟩ := h
  have hshow : Shows (parseAll T (data :: rest)) r (false, e.2) := by
    refine ⟨.error e, ⟨m, ?_⟩, rfl⟩
    rw [parseAll, hm]
  constructor
  · exact fun hseen => hshow.unique (fuelMono_parseAll _) hseen
  · rintro rfl
    exact hshow

/-- A buffer with which `process` does not end is the last. -/
theorem not_shows_parseAll {r : Reader} {data : List UInt8} {rest : List (List UInt8)}
    (h : ¬ Halts (process T) (r.feed data)) (seen : Bool × List Event) :
    ¬ Shows (parseAll T (data :: rest)) r seen := by
  rintro ⟨outcome, ⟨n, hn⟩, -⟩
  rw [parseAll] at hn
  cases hp : parse T data n r with
  | none =>
    rw [hp] at hn
    cases hn
  | some out => exact h ⟨out, n, hp⟩

/-- The reader waits where it is, but for spaces. -/
def Waiting (T : Charsets) (r : Reader) : Prop :=
  ∃ v, Reaches T r v ∧ tick T v = .wait ∧ ¬ Cut v ∧ ¬ Stuck v ∧ v.events = r.events

private theorem verdict_of_wait {w : Reader} (hwait : tick T w = .wait) (hcut : ¬ Cut w)
    (hstuck : ¬ Stuck w) : verdict T w = some (true, w.events) := by
  have hthrow : ¬ (tick T w = .fail ∨ Cut w) := by
    rintro (hfail | h)
    · rw [hwait] at hfail
      cases hfail
    · exact hcut h
  rw [verdict, if_neg hthrow, if_neg hstuck]

/-- What a caller sees of several buffers with clean cuts between them. -/
theorem shows_parseAll_iff {buffers : List (List UInt8)} {r w : Reader} (hr : r.state ≠ .end_)
    (hv : Waiting T r)
    (hclean : ∀ pre post, buffers = pre ++ post → pre ≠ [] → post ≠ [] →
      CleanCut T r pre.flatten)
    (hw : Reaches T (r.feed buffers.flatten) w) (hrest : (machine T).Rests w)
    (seen : Bool × List Event) :
    Shows (parseAll T buffers) r seen ↔ verdict T w = some seen := by
  induction buffers generalizing r with
  | nil =>
    obtain ⟨v, hrv, hwait, hcut, hstuck, hev⟩ := hv
    rw [List.flatten_nil, Reader.feed_nil] at hw
    obtain rfl := hrv.rest_unique hw (Incremental.rests_of_wait hwait) hrest
    rw [verdict_of_wait hwait hcut hstuck, Option.some.injEq, hev]
    constructor
    · rintro ⟨outcome, ⟨n, hn⟩, hseen⟩
      cases hn
      exact hseen
    · rintro rfl
      exact ⟨_, ⟨0, rfl⟩, rfl⟩
  | cons data rest ih =>
    obtain ⟨v, hv', hrestv⟩ := (machine T).exists_rests (r.feed data)
    have hfeed : (r.feed data).feed rest.flatten = r.feed (data :: rest).flatten := by
      rw [Reader.feed_feed, List.flatten_cons]
    have hvw : Reaches T (v.feed rest.flatten) w := by
      rw [← hfeed] at hw
      exact hv'.feed_rest hw hrest
    -- behind the first buffer the cut is clean, or there is no other buffer
    have hlast : Cut v ∧ tick T v = .wait ∨ Stuck v → v = w := by
      intro hbad
      have hwait : tick T v = .wait := by
        rcases hbad with ⟨-, hwait⟩ | hstuck
        · exact hwait
        · exact tick_of_stuck hstuck
      have hrest' : rest = [] := by
        by_contra hne
        have hc := hclean [data] rest rfl (by simp) hne
        rw [List.flatten_singleton] at hc
        obtain ⟨hcut, hstuck⟩ := hc v hv' hwait
        rcases hbad with ⟨h, -⟩ | h
        · exact hcut h
        · exact hstuck h
      rw [hrest', List.flatten_nil, Reader.feed_nil] at hvw
      exact Incremental.Reaches.rest_unique (.refl v) hvw hrestv hrest
    rcases process_spec T (r := r.feed data) hr hv' hrestv with
      ⟨hthrow, e, he⟩ | ⟨hstuck, hhalts⟩ | ⟨hwait, hcut, hstuck, r', he, hr', hr'v, hev⟩
    · rw [shows_parseAll_error he]
      rcases hrestv.cases with hwait | hfail
      · have hcut : Cut v := by
          rcases hthrow with hfail | hcut
          · rw [show tick T v = .wait from hwait] at hfail
            cases hfail
          · exact hcut
        rw [← hlast (.inl ⟨hcut, hwait⟩), verdict, if_pos hthrow, Option.some.injEq]
      · have hfail' := (machine T).fail_feed rest.flatten hfail
        have hw' : v.feed rest.flatten = w := Incremental.Reaches.rest_unique (.refl _) hvw
          (Incremental.rests_of_fail hfail') hrest
        rw [← hw', verdict, if_pos (.inl hfail'), Option.some.injEq]
        rfl
    · refine iff_of_false (not_shows_parseAll hhalts seen) ?_
      rw [← hlast (.inr hstuck), verdict, if_neg (not_throws_of_stuck hstuck), if_pos hstuck]
      simp
    · rw [shows_parseAll_cons he]
      apply ih (state_ne_end_of_reaches hr' hr) ⟨v, hr'v, hwait, hcut, hstuck, hev.symm⟩
      · intro pre post hsplit hpre hpost x hx
        have hc := hclean (data :: pre) post (by rw [hsplit]; rfl) (by simp) hpost
        apply hc x
        have hreach := hr'.feed pre.flatten
        rw [show (machine T).feed (r.feed data) pre.flatten = r.feed (data :: pre).flatten by
          rw [List.flatten_cons, ← Reader.feed_feed]; rfl] at hreach
        exact hreach.trans hx
      · rw [← hfeed] at hw
        exact hr'.feed_rest hw hrest

/-! ### Cuts that are not clean -/

/-- Ticks leave an end of the characters at hand. -/
theorem buf_suffix_of_reaches {r w : Reader} (h : Reaches T r w) : w.buf <:+ r.buf := by
  refine h.invariant (P := fun v => v.buf <:+ r.buf) ?_ (List.suffix_refl _)
  intro a b ha hab
  rcases steady_tick (T := T) (r := a) with hwait | ⟨hadv, -⟩
  · rw [show tick T a = .again b from hab] at hwait
    cases hwait
  · obtain ⟨n, -, -, hbuf, -⟩ := hadv b hab
    rw [hbuf]
    exact (List.drop_suffix n a.buf).trans ha

private theorem tickEntref_cut {d : List UInt8} {set : Reader → List UInt8 → Reader} {w : Reader}
    (hset : set (w.feed [';'.toUInt8]) d = w.feed [';'.toUInt8]) (hcut : charRefCut w.buf = true)
    (hwait : tickEntref d set w = .wait) :
    tickEntref d set (w.feed [';'.toUInt8]) = .again ((w.feed [';'.toUInt8]).advancePos 8) := by
  have hroom : ¬ maxValueSize ≤ d.length + 1 := by
    intro h
    rw [tickEntref, if_pos h] at hwait
    cases hwait
  have hlen : ¬ (w.feed [';'.toUInt8]).buf.length < 7 := by
    simp only [charRefCut, Bool.and_eq_true, decide_eq_true_eq] at hcut
    simp [hcut.1.1]
  rw [tickEntref, if_neg hroom, if_neg hlen, entity_feed_semicolon hcut]
  simp only [List.append_nil, hset]

/-- Behind the semicolon of a character reference the reader waits again. -/
private theorem tick_cut {w : Reader} (hcut : Cut w) (hwait : tick T w = .wait) :
    tick T (w.feed [';'.toUInt8]) = .again ((w.feed [';'.toUInt8]).advancePos 8) ∧
      tick T ((w.feed [';'.toUInt8]).advancePos 8) = .wait := by
  obtain ⟨hstate, hhead, href⟩ := hcut
  have hlen : w.buf.length = 7 := by
    simp only [charRefCut, Bool.and_eq_true, decide_eq_true_eq] at href
    exact href.1.1
  obtain ⟨rest, hbuf⟩ : ∃ rest, w.buf = '&'.toUInt8 :: rest := by
    cases hb : w.buf with
    | nil =>
      rw [hb] at hhead
      cases hhead
    | cons c rest =>
      rw [hb] at hhead
      exact ⟨rest, by rw [Option.some.inj hhead]⟩
  have hne : rest ≠ [] := by
    rintro rfl
    rw [hbuf] at hlen
    cases hlen
  have hempty : ((w.feed [';'.toUInt8]).advancePos 8).buf = [] := by
    simp [Reader.advancePos, hlen]
  -- what is left to say of each state: which string the reference belongs to
  have hfinish : ∀ (d : List UInt8) (set : Reader → List UInt8 → Reader),
      set (w.feed [';'.toUInt8]) d = w.feed [';'.toUInt8] →
      (∀ x, tick T (w.feed x) = tickEntref d set (w.feed x)) →
      tick T ((w.feed [';'.toUInt8]).advancePos 8) = .wait →
      tick T (w.feed [';'.toUInt8]) = .again ((w.feed [';'.toUInt8]).advancePos 8) ∧
        tick T ((w.feed [';'.toUInt8]).advancePos 8) = .wait := by
    intro d set hset htick hw
    have h0 := htick []
    rw [Reader.feed_nil, hwait] at h0
    exact ⟨(htick _).trans (tickEntref_cut hset href h0.symm), hw⟩
  have hencoding : w.state = .declEncodingNameApos ∨ w.state = .declEncodingNameQuot →
      tick T (w.feed [';'.toUInt8]) = .again ((w.feed [';'.toUInt8]).advancePos 8) ∧
        tick T ((w.feed [';'.toUInt8]).advancePos 8) = .wait := by
    intro hs
    have htick : ∀ v : Reader, v.state = w.state → tick T v = tickEncoding T v := by
      intro v hv
      rcases hs with hs | hs <;> rw [tick, hv, hs]
    have hends : ¬ endsEncoding w.state '&'.toUInt8 = true := by
      rcases hs with hs | hs <;> rw [hs] <;> decide
    refine hfinish w.encoding Reader.setEncoding rfl (fun x => ?_) ?_
    · rw [htick (w.feed x) rfl, tickEncoding, Reader.buf_feed, hbuf]
      exact (if_neg hends).trans (if_pos rfl)
    · rw [htick ((w.feed [';'.toUInt8]).advancePos 8) rfl, tickEncoding, hempty]
  have hattrib : w.state = .elementAttrValueApos ∨ w.state = .elementAttrValueQuot →
      tick T (w.feed [';'.toUInt8]) = .again ((w.feed [';'.toUInt8]).advancePos 8) ∧
        tick T ((w.feed [';'.toUInt8]).advancePos 8) = .wait := by
    intro hs
    have htick : ∀ v : Reader, v.state = w.state →
        tick T v = tickScan attribValueSlot (inAttrValue w.state) (behindAttrValue T) v := by
      intro v hv
      rcases hs with hs | hs <;> rw [tick, hv, hs]
    have hfits : attribValueSlot.fits w 0 = true := by
      by_contra hfits
      rw [htick w rfl, tickScan] at hwait
      simp [hfits] at hwait
    have hin : inAttrValue w.state '&'.toUInt8 = false := by
      rcases hs with hs | hs <;> rw [hs] <;> decide
    refine hfinish w.attribValue Reader.setAttribValue ?_ (fun x => ?_) ?_
    · obtain ⟨buf, pos, attribs, value, encoding, charset, state, elements, events⟩ := w
      cases attribs <;> rfl
    · have hfits' : attribValueSlot.fits (w.feed x) 0 = true := hfits
      rw [htick (w.feed x) rfl, tickScan, Reader.buf_feed, hbuf, hfits']
      simp only [Bool.not_true, Bool.false_eq_true, if_false, List.cons_append, hin]
      exact if_neg (by simp)
    · have hfits' : attribValueSlot.fits ((w.feed [';'.toUInt8]).advancePos 8) 0 = true := hfits
      rw [htick ((w.feed [';'.toUInt8]).advancePos 8) rfl, tickScan, hempty, hfits']
      rfl
  simp only [List.mem_cons, List.not_mem_nil, or_false] at hstate
  rcases hstate with hs | hs | hs | hs | hs
  · exact hencoding (.inl hs)
  · exact hencoding (.inr hs)
  · exact hattrib (.inl hs)
  · exact hattrib (.inr hs)
  · have htick : ∀ v : Reader, v.state = w.state → tick T v = tickContent T v := by
      intro v hv
      rw [tick, hv, hs]
    refine hfinish w.value Reader.setValue rfl (fun x => ?_) ?_
    · rw [htick (w.feed x) rfl, tickContent, Reader.buf_feed, hbuf]
      have hne' : rest ++ x ≠ [] := by simp [hne]
      exact (if_neg (by decide)).trans (if_pos ⟨rfl, hne'⟩)
    · rw [htick ((w.feed [';'.toUInt8]).advancePos 8) rfl, tickContent, hempty]

/-- A cut that is not clean shows with some input behind it. -/
theorem cleanCut_of_sameShown {r : Reader} {data : List UInt8} (hr : r.state ≠ .end_)
    (h : ∀ rest, SameShown T r [data, rest]) : CleanCut T r data := by
  intro w hw hwait
  have hrest := Incremental.rests_of_wait (M := machine T) hwait
  have hthrows : Cut w → ∃ e, Ends (parse T data) r (.error (e, w.events)) := by
    intro hcut
    rcases process_spec T (r := r.feed data) hr hw hrest with
      ⟨-, he⟩ | ⟨hstuck, -⟩ | ⟨-, hcut', -⟩
    · exact he
    · exact absurd (.inr hcut) (not_throws_of_stuck (T := T) hstuck)
    · exact absurd hcut hcut'
  constructor
  · intro hcut
    obtain ⟨e, he⟩ := hthrows hcut
    obtain ⟨htick, hwait'⟩ := tick_cut hcut hwait
    -- with the semicolon there is no exception
    have hsplit := (h [';'.toUInt8] (false, w.events)).mp ((shows_parseAll_error he _).mpr rfl)
    have hreach : Reaches T (r.feed [data, [';'.toUInt8]].flatten)
        ((w.feed [';'.toUInt8]).advancePos 8) := by
      have hfeed := hw.feed [';'.toUInt8]
      rw [show (machine T).feed (r.feed data) [';'.toUInt8] =
        r.feed [data, [';'.toUInt8]].flatten by simp [machine]] at hfeed
      exact hfeed.trans (.tick htick)
    have hempty : ((w.feed [';'.toUInt8]).advancePos 8).buf.head? = none := by
      have hlen := hcut.2.2
      simp only [charRefCut, Bool.and_eq_true, decide_eq_true_eq] at hlen
      simp [Reader.advancePos, hlen.1.1]
    rw [shows_parse_iff hr hreach (Incremental.rests_of_wait hwait'),
      verdict_of_wait hwait' (fun hc => by simp [hc.2.1] at hempty)
        (fun hs => by simp [hs.2.1] at hempty)] at hsplit
    simp at hsplit
  · intro hstuck
    -- with characters behind the reference `process` ends
    have hhalts : ¬ Halts (process T) (r.feed data) := by
      rcases process_spec T (r := r.feed data) hr hw hrest with ⟨hfail, -⟩ | ⟨-, hh⟩ | ⟨-, -, hs, -⟩
      · exact absurd hfail (not_throws_of_stuck hstuck)
      · exact hh
      · exact absurd hstuck hs
    obtain ⟨v, hv, hrestv⟩ :=
      (machine T).exists_rests (r.feed [data, List.replicate 7 'x'.toUInt8].flatten)
    have hvs : ¬ Stuck v := by
      rintro ⟨-, hhead, hlen, -⟩
      have hreach : Reaches T (w.feed (List.replicate 7 'x'.toUInt8)) v := by
        rw [show r.feed [data, List.replicate 7 'x'.toUInt8].flatten =
          (machine T).feed (r.feed data) (List.replicate 7 'x'.toUInt8) by simp [machine]] at hv
        exact hw.feed_rest hv hrestv
      have hsuffix : v.buf <:+ List.replicate 7 'x'.toUInt8 := by
        apply List.suffix_of_suffix_length_le (buf_suffix_of_reaches hreach)
        · exact List.suffix_append w.buf _
        · simp only [List.length_replicate]
          omega
      have hmem := hsuffix.subset (List.mem_of_mem_head? hhead)
      revert hmem
      decide
    have hshown : ∃ seen, verdict T v = some seen := by
      unfold verdict
      rw [if_neg hvs]
      split
      · exact ⟨_, rfl⟩
      · exact ⟨_, rfl⟩
    obtain ⟨seen, hseen⟩ := hshown
    have hwhole := (shows_parse_iff hr hv hrestv seen).mpr hseen
    exact not_shows_parseAll hhalts seen ((h _ seen).mpr hwhole)

private theorem eq_singleton_of_pair {a b : List UInt8} {pre post : List (List UInt8)}
    (h : [a, b] = pre ++ post) (hpre : pre ≠ []) (hpost : post ≠ []) : pre = [a] := by
  match pre, hpre with
  | [a'], _ =>
    cases h
    rfl
  | a' :: b' :: pre, _ =>
    have hlen := congrArg List.length h
    have := List.length_pos_iff.mpr hpost
    simp only [List.length_append, List.length_cons, List.length_nil] at hlen
    omega

theorem waiting_new : Waiting T Reader.new :=
  ⟨Reader.new, .refl _, rfl, by decide, by decide, rfl⟩

/-- With clean cuts between the buffers, a caller sees what it sees of one buffer; and a cut behind
some input is clean exactly when this is so whatever follows. -/
theorem sameShown_of_cleanCut (T : Charsets) :
    (∀ buffers : List (List UInt8),
      (∀ pre post, buffers = pre ++ post → pre ≠ [] → post ≠ [] →
        CleanCut T Reader.new pre.flatten) → SameShown T Reader.new buffers) ∧
    ∀ data, CleanCut T Reader.new data ↔ ∀ rest, SameShown T Reader.new [data, rest] := by
  have hnew : Reader.new.state ≠ .end_ := by decide
  have hclean : ∀ buffers : List (List UInt8),
      (∀ pre post, buffers = pre ++ post → pre ≠ [] → post ≠ [] →
        CleanCut T Reader.new pre.flatten) → SameShown T Reader.new buffers := by
    intro buffers h seen
    obtain ⟨w, hw, hrest⟩ := (machine T).exists_rests (Reader.new.feed buffers.flatten)
    rw [shows_parseAll_iff hnew waiting_new h hw hrest, shows_parse_iff hnew hw hrest]
  refine ⟨hclean, fun data => ⟨fun h rest => ?_, cleanCut_of_sameShown hnew⟩⟩
  apply hclean
  intro pre post hsplit hpre hpost
  rw [eq_singleton_of_pair hsplit hpre hpost, List.flatten_singleton]
  exact h

/-- A cut in the data of an element. -/
theorem sameShown_element :
    SameShown plainCharsets Reader.new [ascii "<a>x", ascii "y</a>"] := by
  refine (sameShown_of_cleanCut plainCharsets).1 _ fun pre post h hpre hpost w hw hwait => ?_
  rw [eq_singleton_of_pair h hpre hpost, List.flatten_singleton] at hw
  have hrest : (machine plainCharsets).tick ((machine plainCharsets).after 10
      (Reader.new.feed (ascii "<a>x"))) = .wait := by rfl
  have heq := hw.rest_unique (Incremental.reaches_after 10 _)
    (Incremental.rests_of_wait (M := machine plainCharsets) hwait)
    (Incremental.rests_of_wait hrest)
  rw [heq]
  decide

/-- A cut behind the last digit of a character reference. -/
theorem not_sameShown_charRef :
    ¬ SameShown plainCharsets Reader.new [ascii "<a>&#12345", ascii ";</a>"] := by
  intro h
  have hsplit : Shows (parseAll plainCharsets [ascii "<a>&#12345", ascii ";</a>"]) Reader.new
      (false, [.startTag (ascii "a") [] false]) :=
    ⟨.error (⟨3, "Expecting content, element or comment"⟩, [.startTag (ascii "a") [] false]),
      ⟨10, by rfl⟩, rfl⟩
  have hwhole : (parse plainCharsets [ascii "<a>&#12345", ascii ";</a>"].flatten 10
      Reader.new).map observed =
      some (true, [.startTag (ascii "a") [] false, .endTag (ascii "a") []]) := by rfl
  obtain ⟨outcome, houtcome, hseen⟩ := Option.map_eq_some_iff.mp hwhole
  have hne := Shows.unique (fuelMono_parse _) ((h _).mp hsplit) ⟨outcome, ⟨10, houtcome⟩, hseen⟩
  cases hne

end Shown

end Blacklink.Xml
