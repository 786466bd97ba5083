import Finchers.Endpoint.Syntax

/-!
# Which segments `segment(s)` accepts

The constant is encoded once and compared with the bytes of the segment as they came; a segment
that decodes to the constant may be spelled in another way, and one that is spelled like the
constant may decode to something else.

* `accepts_iff` — what `segment(s)` accepts;
* `yields_iff` — when `param::<String>()` yields `s`;
* `segment_agrees_iff` — **the two agree, iff the segment is spelled canonically as far as it decodes
  to `s`, and `s` has no escape as far as the segment is its encoding**.
-/

set_option autoImplicit false

namespace Finchers

/-- `%` and the hexadecimal digits are not escaped. -/
theorem SEGMENT_ENCODE_SET.regular : SEGMENT_ENCODE_SET.Regular where
  percent := by decide
  digit {b n} h := by
    have hdigits : ∀ b, Percent.hexVal b ≠ none → SEGMENT_ENCODE_SET b = false :=
      UInt8.forall_of_lt (by decide +kernel)
    exact hdigits b (by rw [h]; exact Option.some_ne_none n)

variable (ε : Type) {cx : PreflightContext} {raw : Str} {c : CursorInner}

/-- `segment(s)` accepts the next segment. -/
def Accepts (s : Str) (cx : PreflightContext) : Prop :=
  ∃ c, (MatchSegmentAction (ε := ε)).preflight (segment s) cx = .ok (.ok (), c)

/-- `param::<String>()` on the next segment succeeds with the value `s`. -/
def Yields (s : Str) (cx : PreflightContext) : Prop :=
  ∃ c, (ParamAction (ε := ε) Str).preflight () cx = .ok (.ok (.single s), c)

theorem accepts_iff (s : Str) (h : Cursor.nextSegment cx.path cx.cursor = .ok (some raw, c)) :
    Accepts ε s cx ↔
      Utf8.bytes raw = Percent.encode SEGMENT_ENCODE_SET (Utf8.bytes s) := by
  unfold Accepts
  rw [MatchSegmentAction.preflight_eq _ h]
  by_cases heq : Utf8.bytes raw = (segment s).encoded
  · rw [if_pos heq]
    exact ⟨fun _ => heq, fun _ => ⟨c, rfl⟩⟩
  · rw [if_neg heq]
    refine ⟨fun ⟨_, hok⟩ => ?_, fun hraw => absurd hraw heq⟩
    cases hok

theorem yields_iff (s : Str) (h : Cursor.nextSegment cx.path cx.cursor = .ok (some raw, c)) :
    Yields ε s cx ↔ EncodedStr.percentDecode raw = .ok s := by
  unfold Yields
  rw [ParamAction.preflight_eq Str h]
  simp only [FromEncodedStr.fromEncodedStr]
  cases hd : EncodedStr.percentDecode raw with
  | error e =>
    refine ⟨fun ⟨_, hok⟩ => ?_, fun hok => ?_⟩
    · cases hok
    · cases hok
  | ok t =>
    constructor
    · rintro ⟨_, hok⟩
      cases hok
      rfl
    · intro hok
      cases hok
      exact ⟨c, rfl⟩

/-- **When `segment(s)` accepts exactly what decodes to `s`.**  The segment is accepted iff it
decodes to `s`, that is iff `param::<String>()` yields `s`, exactly for these segments: if it is the
encoding of `s`, then `s` has no `%` that two hexadecimal digits follow; and if it decodes to `s`,
then it is spelled as encoding spells it. -/
theorem segment_agrees_iff (s : Str)
    (h : Cursor.nextSegment cx.path cx.cursor = .ok (some raw, c)) :
    ((Accepts ε s cx ↔ EncodedStr.percentDecode raw = .ok s) ∧
      (Accepts ε s cx ↔ Yields ε s cx)) ↔
    (Utf8.bytes raw = Percent.encode SEGMENT_ENCODE_SET (Utf8.bytes s) →
        Percent.hasEscape (Utf8.bytes s) = false) ∧
      (EncodedStr.percentDecode raw = .ok s →
        Percent.canonical SEGMENT_ENCODE_SET (Utf8.bytes raw) = true) := by
  rw [yields_iff ε s h, and_self_iff, accepts_iff ε s h, EncodedStr.percentDecode_eq_ok_iff]
  have hround := Percent.decode_encode SEGMENT_ENCODE_SET.regular (Utf8.bytes s)
  constructor
  · intro hagree
    have hplain : Utf8.bytes raw = Percent.encode SEGMENT_ENCODE_SET (Utf8.bytes s) →
        Percent.hasEscape (Utf8.bytes s) = false := by
      intro hraw
      have hdec := hagree.mp hraw
      rw [hraw, hround] at hdec
      exact (Percent.decode_eq_self_iff _).mp hdec
    refine ⟨hplain, fun hdec => ?_⟩
    have hraw := hagree.mpr hdec
    rw [hraw]
    exact Percent.canonical_encode SEGMENT_ENCODE_SET.regular (hplain hraw)
  · rintro ⟨hplain, hcanon⟩
    constructor
    · intro hraw
      rw [hraw, hround]
      exact (Percent.decode_eq_self_iff _).mpr (hplain hraw)
    · intro hdec
      rw [← hdec]
      exact (Percent.encode_decode (hcanon hdec)).symm

/-- `GET /%66oo`. -/
def getFooSpelled : PreflightContext :=
  .new (.new 0 ⟨.get, .origin ⟨"/%66oo".toList, none, rfl⟩, []⟩)

/-- `GET /foo%20bar`. -/
def getFooBar : PreflightContext :=
  .new (.new 0 ⟨.get, .origin ⟨"/foo%20bar".toList, none, rfl⟩, []⟩)

/-- `segment("foo bar")` and `GET /foo%20bar`. -/
theorem segment_agrees_iff_canonical :
    (Accepts Empty "foo bar".toList getFooBar ↔
        EncodedStr.percentDecode "foo%20bar".toList = .ok "foo bar".toList) ∧
      (Accepts Empty "foo bar".toList getFooBar ↔ Yields Empty "foo bar".toList getFooBar) := by
  have hnext : Cursor.nextSegment getFooBar.path getFooBar.cursor =
      .ok (some "foo%20bar".toList, ⟨10, 1⟩) := rfl
  refine (segment_agrees_iff Empty "foo bar".toList hnext).mpr ⟨fun _ => ?_, fun _ => ?_⟩
  · decide
  · decide

/-- `%66oo` decodes to `foo`, and `segment("foo")` does not accept it. -/
theorem segment_rejects_spelling :
    EncodedStr.percentDecode "%66oo".toList = .ok "foo".toList ∧
      Yields Empty "foo".toList getFooSpelled ∧ ¬ Accepts Empty "foo".toList getFooSpelled := by
  have hnext : Cursor.nextSegment getFooSpelled.path getFooSpelled.cursor =
      .ok (some "%66oo".toList, ⟨6, 1⟩) := rfl
  have hdec : EncodedStr.percentDecode "%66oo".toList = .ok "foo".toList :=
    EncodedStr.percentDecode_eq_ok_iff.mpr (by decide)
  refine ⟨hdec, (yields_iff Empty _ hnext).mpr hdec, fun h => ?_⟩
  exact absurd ((accepts_iff Empty _ hnext).mp h) (by decide)

end Finchers
