import Finchers.Context
import Finchers.Lib.Loop

/-!
# The cookies of a request

`Context::cookies` installs an empty jar in the context and then fills it from the `Cookie`
headers; it returns early at the first header that is not text and at the first malformed cookie,
and leaves the jar as far as it was filled.  Later calls return the jar that is there.

* `Context.cookies_first`, `Context.cookies_later` — the two ways a call can go;
* `cookies_lawful_iff` — **errors stay errors and no jar lacks a cookie, iff the headers are well
  formed or no call is made**.
-/

set_option autoImplicit false

namespace Finchers

open Loop

/-! ## `Context::cookies` -/

/-- What other libraries do with the bytes of a `Cookie` header: `HeaderValue::to_str`, and
`Cookie::parse_encoded` on a piece of the text; an error is given by its text. -/
structure CookieText where
  toStr : HeaderValue → Except String Str
  parseEncoded : Str → Except String Cookie

namespace CookieText

variable {ε : Type} (text : CookieText)

/-- The pieces of the text of a `Cookie` header. -/
def pieces (s : Str) : List Str := (s.splitOn ';').map Str.trim

/-- The inner loop of `Context::cookies`: one piece. -/
def readPiece (s : Str) (jar : CookieJar) : Except (Error ε) Unit × CookieJar :=
  match text.parseEncoded s with
  | .error msg => (.error (.badRequest msg), jar)
  | .ok cookie => (.ok (), jar.addOriginal cookie)

/-- The outer loop of `Context::cookies`: one header. -/
def readHeader (raw : HeaderValue) (jar : CookieJar) : Except (Error ε) Unit × CookieJar :=
  match text.toStr raw with
  | .error msg => (.error (.badRequest msg), jar)
  | .ok s => forEach text.readPiece (pieces s) jar

/-- A piece is a cookie. -/
def IsCookie (s : Str) : Prop := ∃ c, text.parseEncoded s = .ok c

/-- A header is text, and each piece of it is a cookie. -/
def IsCookies (raw : HeaderValue) : Prop :=
  ∃ s, text.toStr raw = .ok s ∧ ∀ piece ∈ pieces s, text.IsCookie piece

/-- The `Cookie` headers of a request are well formed. -/
def WellFormed (headers : HeaderMap) : Prop :=
  ∀ raw ∈ headers.getAll COOKIE, text.IsCookies raw

/-- A cookie of this name is in the piece. -/
def PieceHas (s : Str) (name : Str) : Prop := ∃ c, text.parseEncoded s = .ok c ∧ c.name = name

/-- A cookie of this name is in the header. -/
def HeaderHas (raw : HeaderValue) (name : Str) : Prop :=
  ∃ s, text.toStr raw = .ok s ∧ ∃ piece ∈ pieces s, text.PieceHas piece name

/-- A cookie of this name is in one of the `Cookie` headers. -/
def Occurs (headers : HeaderMap) (name : Str) : Prop :=
  ∃ raw ∈ headers.getAll COOKIE, text.HeaderHas raw name

end CookieText

/-- The jar has an original cookie of this name. -/
def CookieJar.HasOriginal (jar : CookieJar) (name : Str) : Prop :=
  ∃ c ∈ jar.originalCookies, c.name = name

/-- `Context::cookies`. -/
def Context.cookiesJar {ε : Type} (text : CookieText) (cx : Context) :
    Except (Error ε) CookieJar × Context :=
  match cx.cookies with
  | some jar => (.ok jar, cx)
  | none =>
    let (r, jar) := forEach text.readHeader (cx.request.headers.getAll COOKIE) CookieJar.new
    (r.map (fun _ => jar), { cx with cookies := some jar })

/-! ## One call -/

section

variable {ε : Type} {text : CookieText}

theorem hasOriginal_addOriginal (jar : CookieJar) (c : Cookie) (name : Str) :
    (jar.addOriginal c).HasOriginal name ↔ jar.HasOriginal name ∨ c.name = name := by
  unfold CookieJar.HasOriginal CookieJar.addOriginal
  simp only [List.mem_append, List.mem_filter, List.mem_singleton, bne_iff_ne, ne_eq]
  constructor
  · rintro ⟨d, ⟨hd, -⟩ | rfl, hname⟩
    · exact Or.inl ⟨d, hd, hname⟩
    · exact Or.inr hname
  · rintro (⟨d, hd, hname⟩ | hname)
    · by_cases heq : d.name = c.name
      · exact ⟨c, Or.inr rfl, heq.symm.trans hname⟩
      · exact ⟨d, Or.inl ⟨hd, heq⟩, hname⟩
    · exact ⟨c, Or.inr rfl, hname⟩

theorem readPiece_ok_iff (s : Str) (jar : CookieJar) :
    (text.readPiece (ε := ε) s jar).1 = .ok () ↔ text.IsCookie s := by
  unfold CookieText.readPiece CookieText.IsCookie
  cases text.parseEncoded s with
  | error msg => simp
  | ok c => simp

theorem readPiece_holds {s : Str} {jar jar' : CookieJar}
    (h : text.readPiece (ε := ε) s jar = (.ok (), jar')) (name : Str) :
    jar'.HasOriginal name ↔ jar.HasOriginal name ∨ text.PieceHas s name := by
  unfold CookieText.readPiece at h
  unfold CookieText.PieceHas
  cases hp : text.parseEncoded s with
  | error msg =>
    rw [hp] at h
    cases h
  | ok c =>
    rw [hp] at h
    cases h
    rw [hasOriginal_addOriginal]
    simp

theorem readHeader_ok_iff (raw : HeaderValue) (jar : CookieJar) :
    (text.readHeader (ε := ε) raw jar).1 = .ok () ↔ text.IsCookies raw := by
  unfold CookieText.readHeader CookieText.IsCookies
  cases text.toStr raw with
  | error msg => simp
  | ok s =>
    rw [forEach_ok_iff (fun piece jar => readPiece_ok_iff piece jar)]
    simp

theorem readHeader_holds {raw : HeaderValue} {jar jar' : CookieJar}
    (h : text.readHeader (ε := ε) raw jar = (.ok (), jar')) (name : Str) :
    jar'.HasOriginal name ↔ jar.HasOriginal name ∨ text.HeaderHas raw name := by
  unfold CookieText.readHeader at h
  unfold CookieText.HeaderHas
  cases hs : text.toStr raw with
  | error msg =>
    rw [hs] at h
    cases h
  | ok s =>
    rw [hs] at h
    rw [forEach_holds (fun piece _ _ hp => readPiece_holds hp) h]
    simp

namespace Context

/-- A later call returns the jar that is there. -/
theorem cookies_later {cx : Context} {jar : CookieJar} (h : cx.cookies = some jar) :
    cx.cookiesJar (ε := ε) text = (.ok jar, cx) := by
  unfold cookiesJar
  rw [h]

/-- The first call installs a jar; it succeeds iff the headers are well formed, and then the jar
has the names that occur in them. -/
theorem cookies_first (text : CookieText) {cx : Context} (h : cx.cookies = none) :
    ∃ jar, (cx.cookiesJar (ε := ε) text).2 = { cx with cookies := some jar } ∧
      ((text.WellFormed cx.request.headers ∧ (cx.cookiesJar (ε := ε) text).1 = .ok jar ∧
          ∀ name, jar.HasOriginal name ↔ text.Occurs cx.request.headers name) ∨
        (¬ text.WellFormed cx.request.headers ∧
          ∃ e, (cx.cookiesJar (ε := ε) text).1 = .error e)) := by
  unfold cookiesJar
  rw [h]
  have hok : (forEach text.readHeader _ CookieJar.new).1 = .ok () ↔ _ :=
    forEach_ok_iff (fun raw jar => readHeader_ok_iff (ε := ε) raw jar)
      (cx.request.headers.getAll COOKIE) CookieJar.new
  rcases hr : forEach text.readHeader (cx.request.headers.getAll COOKIE) CookieJar.new with
    ⟨e | ⟨⟩, jar⟩
  · rw [hr] at hok
    refine ⟨jar, rfl, Or.inr ⟨fun hwell => ?_, e, rfl⟩⟩
    cases hok.mpr hwell
  · rw [hr] at hok
    refine ⟨jar, rfl, Or.inl ⟨hok.mp rfl, rfl, fun name => ?_⟩⟩
    have hnew : ¬ CookieJar.new.HasOriginal name := by
      rintro ⟨c, hc, -⟩
      cases hc
    rw [forEach_holds (fun raw _ _ hp => readHeader_holds hp) hr]
    exact or_iff_right hnew

end Context

end

/-! ## Sequences of calls -/

/-- What happens to a context between two calls: the `Cookie` headers and the original cookies of
its jar are left as they are; cookies may be added to the jar and removed from it. -/
structure Between where
  change : Context → Context
  headers : ∀ cx, (change cx).request.headers.getAll COOKIE = cx.request.headers.getAll COOKIE
  originals : ∀ cx, (change cx).cookies.map (·.originalCookies) = cx.cookies.map (·.originalCookies)

/-- A call of `Context::cookies`: the context before it, its result, the context after it. -/
structure CookiesCall (ε : Type) where
  before : Context
  result : Except (Error ε) CookieJar
  after : Context

/-- Call `Context::cookies` again and again; before each call the context is changed. -/
def cookiesCalls {ε : Type} (text : CookieText) : List Between → Context → List (CookiesCall ε)
  | [], _ => []
  | b :: bs, cx =>
    let before := b.change cx
    let (result, after) := before.cookiesJar text
    ⟨before, result, after⟩ :: cookiesCalls text bs after

/-- What is expected of some calls on a context with the given headers: if these are not well
formed every call fails, every jar has all names that occur in them, and a failed call leaves the
context as it was. -/
structure CookiesLawful {ε : Type} (text : CookieText) (headers : HeaderMap)
    (calls : List (CookiesCall ε)) : Prop where
  fails : ¬ text.WellFormed headers → ∀ call ∈ calls, ∃ e, call.result = .error e
  complete : ∀ call ∈ calls, ∀ jar, call.result = .ok jar →
    ∀ name, text.Occurs headers name → jar.HasOriginal name
  unchanged : ∀ call ∈ calls, ∀ e, call.result = .error e → call.after = call.before

section

variable {ε : Type} {text : CookieText} {headers : HeaderMap}

theorem wellFormed_congr {headers' : HeaderMap}
    (h : headers'.getAll COOKIE = headers.getAll COOKIE) :
    text.WellFormed headers' ↔ text.WellFormed headers := by
  unfold CookieText.WellFormed
  rw [h]

theorem occurs_congr {headers' : HeaderMap}
    (h : headers'.getAll COOKIE = headers.getAll COOKIE) (name : Str) :
    text.Occurs headers' name ↔ text.Occurs headers name := by
  unfold CookieText.Occurs
  rw [h]

/-- A jar with the same original cookies as one that a context holds. -/
theorem Between.jar (b : Between) {cx : Context} {jar : CookieJar} (h : cx.cookies = some jar) :
    ∃ jar', (b.change cx).cookies = some jar' ∧ jar'.originalCookies = jar.originalCookies := by
  have horig := b.originals cx
  rw [h] at horig
  cases hj : (b.change cx).cookies with
  | none =>
    rw [hj] at horig
    cases horig
  | some jar' =>
    rw [hj] at horig
    exact ⟨jar', rfl, by simpa using horig⟩

/-- Once a complete jar is there, every call returns a complete one. -/
theorem calls_complete (bs : List Between) {cx : Context} {jar : CookieJar}
    (hjar : cx.cookies = some jar)
    (hall : ∀ name, text.Occurs headers name → jar.HasOriginal name) :
    ∀ call ∈ cookiesCalls (ε := ε) text bs cx, ∃ jar', call.result = .ok jar' ∧
      ∀ name, text.Occurs headers name → jar'.HasOriginal name := by
  induction bs generalizing cx jar with
  | nil =>
    intro call hcall
    cases hcall
  | cons b bs ih =>
    intro call hcall
    obtain ⟨jar', hjar', horig⟩ := b.jar hjar
    have hall' : ∀ name, text.Occurs headers name → jar'.HasOriginal name := by
      intro name hname
      unfold CookieJar.HasOriginal
      rw [horig]
      exact hall name hname
    simp only [cookiesCalls, Context.cookies_later hjar'] at hcall
    rcases List.mem_cons.mp hcall with rfl | hcall
    · exact ⟨jar', rfl, hall'⟩
    · exact ih hjar' hall' call hcall

/-- **When a sequence of calls behaves as expected.**  On a new context with any request, whatever
happens to it between the calls, failed calls leave no partly filled jar behind, iff the `Cookie`
headers are well formed or no call is made: the first call on malformed headers installs a jar, and
later calls return it. -/
theorem cookies_lawful_iff (text : CookieText) (addr : Nat) (request : Request)
    (bs : List Between) :
    CookiesLawful (ε := ε) text request.headers
        (cookiesCalls text bs (Context.new addr request)) ↔
      text.WellFormed request.headers ∨ bs = [] := by
  cases bs with
  | nil =>
    refine ⟨fun _ => Or.inr rfl, fun _ => ⟨fun _ call hcall => ?_, fun call hcall => ?_,
      fun call hcall => ?_⟩⟩
    · cases hcall
    · cases hcall
    · cases hcall
  | cons b bs =>
    have hheaders := b.headers (Context.new addr request)
    have hnone : (b.change (Context.new addr request)).cookies = none := by
      have horig := b.originals (Context.new addr request)
      exact Option.map_eq_none_iff.mp horig
    obtain ⟨jar, hafter, hfirst⟩ := Context.cookies_first text (ε := ε) hnone
    rw [wellFormed_congr hheaders] at hfirst
    have hjar : ((b.change (Context.new addr request)).cookiesJar (ε := ε) text).2.cookies =
        some jar := by rw [hafter]
    rcases hfirst with ⟨hwell, hres, hnames⟩ | ⟨hbad, e, hres⟩
    · refine ⟨fun _ => Or.inl hwell, fun _ => ?_⟩
      have hall : ∀ name, text.Occurs request.headers name → jar.HasOriginal name := by
        intro name hname
        exact (hnames name).mpr ((occurs_congr hheaders name).mpr hname)
      have hcalls : ∀ call ∈ cookiesCalls (ε := ε) text (b :: bs) (Context.new addr request),
          ∃ jar', call.result = .ok jar' ∧
            ∀ name, text.Occurs request.headers name → jar'.HasOriginal name := by
        intro call hcall
        rcases List.mem_cons.mp hcall with rfl | hcall
        · exact ⟨jar, hres, hall⟩
        · exact calls_complete bs hjar hall call hcall
      refine ⟨fun hbad => absurd hwell hbad, fun call hcall jar' hok => ?_,
        fun call hcall e herr => ?_⟩
      · obtain ⟨jar₁, hok₁, hall₁⟩ := hcalls call hcall
        cases hok₁.symm.trans hok
        exact hall₁
      · obtain ⟨jar₁, hok₁, -⟩ := hcalls call hcall
        cases hok₁.symm.trans herr
    · refine ⟨fun hlaw => ?_, fun h => ?_⟩
      · -- the first call fails, and there is a jar after it
        have hunchanged := hlaw.unchanged _ List.mem_cons_self e hres
        have hcookies := congrArg Context.cookies hunchanged
        have hsome : some jar = none := hjar.symm.trans (hcookies.trans hnone)
        cases hsome
      · rcases h with hwell | hnil
        · exact absurd hwell hbad
        · cases hnil

end

/-! ## A header with a malformed cookie -/

/-- `to_str` on visible characters, and `parse_encoded` on cookies without attributes whose name and
value have no escapes. -/
def plainText : CookieText where
  toStr raw :=
    if raw.all (fun b => (32 ≤ b && b < 127) || b == 9) then
      .ok (raw.map (fun b => Char.ofNat b.toNat))
    else .error "failed to convert header to a str"
  parseEncoded s :=
    match s.span (· != '=') with
    | (_, []) => .error "the cookie is missing a name/value pair"
    | ([], _) => .error "the cookie's name is empty"
    | (name, _ :: value) => .ok (Cookie.new name value)

/-- Nothing happens between two calls. -/
def Between.nothing : Between := ⟨id, fun _ => rfl, fun _ => rfl⟩

/-- `GET /` with the header `Cookie: a=1; b`. -/
def getMalformed : Request :=
  ⟨.get, .origin ⟨['/'], none, slash_rooted⟩, [(COOKIE, Utf8.bytes "a=1; b".toList)]⟩

/-- `b` is not a cookie: the first call fails and the second one returns a jar with `a` alone. -/
theorem cookies_partly_filled :
    (cookiesCalls (ε := Empty) plainText [.nothing, .nothing]
        (Context.new 0 getMalformed)).map (·.result.toOption.map (·.originalCookies)) =
      [none, some [Cookie.new ['a'] ['1']]] ∧
    ¬ CookiesLawful (ε := Empty) plainText getMalformed.headers
        (cookiesCalls plainText [.nothing, .nothing] (Context.new 0 getMalformed)) := by
  refine ⟨by decide, fun h => ?_⟩
  have hunchanged := h.unchanged _ List.mem_cons_self
    (.badRequest "the cookie is missing a name/value pair") rfl
  cases congrArg Context.cookies hunchanged

end Finchers
