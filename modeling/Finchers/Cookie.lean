import Mathlib.Algebra.GroupWithZero.Nat
import Finchers.Http
import Finchers.Lib.Params
import Finchers.Lib.Percent

/-!
# Cookies

The cookie values an application works with, what is known of the text that `Cookie::encoded` prints
for them, and the jar that tells the cookies of the request from the changes made to them.
-/

set_option autoImplicit false

namespace Finchers

inductive SameSite where
  | strict
  | lax
  | none
  deriving DecidableEq, Repr

/-- A cookie; `maxAge` is in seconds, `expires` is the date as `rfc822` prints it. -/
structure Cookie where
  name : Str
  value : Str
  expires : Option Str := none
  maxAge : Option Int := none
  domain : Option Str := none
  path : Option Str := none
  secure : Option Bool := none
  httpOnly : Option Bool := none
  sameSite : Option SameSite := none
  deriving DecidableEq

namespace Cookie

/-- `Cookie::new`. -/
def new (name value : Str) : Cookie := { name := name, value := value }

/-- `Cookie::named`. -/
def named (name : Str) : Cookie := new name []

/-- The date has no control characters; what `rfc822` prints has none. -/
def DatePrinted (c : Cookie) : Prop := ∀ t, c.expires = some t → HeaderValue.Valid (Utf8.bytes t)

end Cookie

/-! ## The text of a cookie -/

/-- A byte of the name of an attribute: a letter or a hyphen. -/
def isAttributeByte (b : UInt8) : Bool := (65 ≤ b && b ≤ 90) || (97 ≤ b && b ≤ 122) || b == 45

/-- The names of the attributes whose values an application chooses freely. -/
def pathName : List UInt8 := Utf8.bytes "Path".toList

def domainName : List UInt8 := Utf8.bytes "Domain".toList

/-- What `Cookie::encoded` prints: the name and the value, percent-encoded, and the attributes after
them.  The cookie library decides which bytes it escapes, at least those of `USERINFO_ENCODE_SET`,
and in which order it prints which attributes; `Path` and `Domain` it prints as they are. -/
structure CookieDisplay where
  encodeSet : Percent.EncodeSet
  /-- `Cookie::fmt_parameters`. -/
  parameters : Cookie → List Params.Param
  userinfo : ∀ {b}, Percent.userinfoEncodeSet b = true → encodeSet b = true
  keepsDigits : encodeSet.KeepsDigits
  attributeName : ∀ {c a}, a ∈ parameters c → ∀ b ∈ a.name, isAttributeByte b = true
  path : ∀ {c a}, a ∈ parameters c → a.name = pathName → a.value = c.path.map Utf8.bytes
  domain : ∀ {c a}, a ∈ parameters c → a.name = domainName → a.value = c.domain.map Utf8.bytes
  valid : ∀ {c a}, c.DatePrinted → a ∈ parameters c → a.name ≠ pathName → a.name ≠ domainName →
    ∀ v, a.value = some v → HeaderValue.Valid v

namespace CookieDisplay

variable (display : CookieDisplay)

/-- The encoded name and the encoded value. -/
def encodedName (c : Cookie) : List UInt8 := Percent.encode display.encodeSet (Utf8.bytes c.name)

def encodedValue (c : Cookie) : List UInt8 := Percent.encode display.encodeSet (Utf8.bytes c.value)

/-- The pieces `EncodedCookie` writes, as bytes. -/
def encodedPieces (c : Cookie) : List (List UInt8) :=
  [display.encodedName c, [61], display.encodedValue c] ++
    (display.parameters c).map fun a => 59 :: 32 :: a.text

/-- `cookie.encoded().to_string()`, as bytes. -/
def encoded (c : Cookie) : List UInt8 := (display.encodedPieces c).flatten

/-- The bytes of the attribute text. -/
def parametersLen (c : Cookie) : Nat := ((display.parameters c).map fun a => a.text.length + 2).sum

/-- The bytes of a name or value that the encoding escapes. -/
def escapes (s : Str) : Nat := (Utf8.bytes s).countP display.encodeSet

theorem length_encodedName (c : Cookie) :
    (display.encodedName c).length = Utf8.len c.name + 2 * display.escapes c.name := by
  rw [encodedName, Percent.length_encode, Utf8.length_bytes]
  rfl

theorem length_encodedValue (c : Cookie) :
    (display.encodedValue c).length = Utf8.len c.value + 2 * display.escapes c.value := by
  rw [encodedValue, Percent.length_encode, Utf8.length_bytes]
  rfl

/-- The text: a parameter, and the attributes after it. -/
theorem encoded_eq_print (c : Cookie) : display.encoded c =
    Params.print ⟨display.encodedName c, some (display.encodedValue c)⟩ (display.parameters c) := by
  simp [encoded, encodedPieces, Params.print, Params.Param.text, List.flatMap_def]

/-- The length of the text: what the buffer estimate counts, two bytes more for each escaped
byte, and the attributes. -/
theorem length_encoded (c : Cookie) :
    (display.encoded c).length = Utf8.len c.name + Utf8.len c.value + 1 +
      (2 * display.escapes c.name + 2 * display.escapes c.value + display.parametersLen c) := by
  have hname := display.length_encodedName c
  have hvalue := display.length_encodedValue c
  have hattributes : (((display.parameters c).map fun a => 59 :: 32 :: a.text).map
      List.length).sum = display.parametersLen c := by
    rw [List.map_map]
    rfl
  simp only [encoded, encodedPieces, List.length_flatten, List.map_append, List.map_cons,
    List.map_nil, List.sum_append, List.sum_cons, List.sum_nil, List.length_singleton,
    hattributes]
  omega

end CookieDisplay

/-! ## The jar -/

/-- A cookie of the delta, and whether it stands for a removal. -/
structure DeltaCookie where
  cookie : Cookie
  removed : Bool

/-- `CookieJar`: the cookies that came with the request and the changes to send back; no two
entries of one kind have the same name. -/
structure CookieJar where
  originalCookies : List Cookie
  deltaCookies : List DeltaCookie

namespace CookieJar

def new : CookieJar := ⟨[], []⟩

/-- `CookieJar::add_original`. -/
def addOriginal (jar : CookieJar) (c : Cookie) : CookieJar :=
  { jar with originalCookies := jar.originalCookies.filter (fun d => d.name != c.name) ++ [c] }

/-- `HashSet::replace` on the delta. -/
def replaceDelta (jar : CookieJar) (d : DeltaCookie) : CookieJar :=
  { jar with
    deltaCookies := jar.deltaCookies.filter (fun e => e.cookie.name != d.cookie.name) ++ [d] }

/-- `CookieJar::add`. -/
def add (jar : CookieJar) (c : Cookie) : CookieJar := jar.replaceDelta ⟨c, false⟩

/-- `CookieJar::remove`: a cookie of the request is removed by sending it back empty and
expired (`past` is a date in the past); any other is only dropped from the delta. -/
def remove (jar : CookieJar) (past : Str) (c : Cookie) : CookieJar :=
  if jar.originalCookies.any (fun d => d.name == c.name) then
    jar.replaceDelta ⟨{ c with value := [], maxAge := some 0, expires := some past }, true⟩
  else
    { jar with
      deltaCookies := jar.deltaCookies.filter (fun e => e.cookie.name != c.name) }

/-- `CookieJar::get`. -/
def get (jar : CookieJar) (name : Str) : Option Cookie :=
  match jar.deltaCookies.find? (fun e => e.cookie.name == name) with
  | some e => if e.removed then none else some e.cookie
  | none => jar.originalCookies.find? (fun c => c.name == name)

/-- `CookieJar::delta`. -/
def delta (jar : CookieJar) : List Cookie := jar.deltaCookies.map (·.cookie)

end CookieJar

end Finchers
