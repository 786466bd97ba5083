import Finchers.Lib.Utf8

/-!
# HTTP values

The parts of an HTTP message that the library reads and writes: request targets, header maps,
requests and responses.  A header map keeps the values of a name in the order in which they
were appended.
-/

set_option autoImplicit false

namespace Finchers

/-- A `str`: its characters.  Positions in it are byte offsets. -/
abbrev Str := List Char

/-- `char::is_whitespace`. -/
def isWhitespace (c : Char) : Bool :=
  let n := c.toNat
  (9 ≤ n && n ≤ 13) || n == 0x20 || n == 0x85 || n == 0xA0 || n == 0x1680 ||
    (0x2000 ≤ n && n ≤ 0x200A) || n == 0x2028 || n == 0x2029 || n == 0x202F || n == 0x205F ||
    n == 0x3000

/-- `str::trim`. -/
def Str.trim (s : Str) : Str :=
  ((s.dropWhile isWhitespace).reverse.dropWhile isWhitespace).reverse

/-- A path that `http::Uri` splits off a request target; it starts with a slash (an absolute
form without a path has the path `/`). -/
structure PathAndQuery where
  path : Str
  query : Option Str
  rooted : path.head? = some '/'

theorem slash_rooted : ['/'].head? = some '/' := rfl

/-- The forms of a request target. -/
inductive Uri where
  | origin (pathAndQuery : PathAndQuery)
  | absolute (scheme authority : Str) (pathAndQuery : PathAndQuery)
  | asterisk
  | authority (authority : Str)

/-- `Uri::path`: the authority form of a `CONNECT` request has no path. -/
def Uri.path : Uri → Str
  | .origin pq => pq.path
  | .absolute _ _ pq => pq.path
  | .asterisk => ['*']
  | .authority _ => []

/-- `Uri::query`. -/
def Uri.query : Uri → Option Str
  | .origin pq => pq.query
  | .absolute _ _ pq => pq.query
  | .asterisk => none
  | .authority _ => none

/-- The target names an authority only. -/
def Uri.isAuthorityForm : Uri → Bool
  | .authority _ => true
  | _ => false

theorem Uri.path_eq_nil_iff (u : Uri) : u.path = [] ↔ u.isAuthorityForm = true := by
  cases u with
  | origin pq =>
    have := pq.rooted
    simp only [path, isAuthorityForm]
    constructor
    · intro h; rw [h] at this; cases this
    · intro h; cases h
  | absolute s a pq =>
    have := pq.rooted
    simp only [path, isAuthorityForm]
    constructor
    · intro h; rw [h] at this; cases this
    · intro h; cases h
  | asterisk => simp [path, isAuthorityForm]
  | authority a => simp [path, isAuthorityForm]

/-- Request methods. -/
inductive Method where
  | get
  | post
  | put
  | delete
  | head
  | options
  | connect
  | patch
  | trace
  | extension (name : String)
  deriving DecidableEq, Repr

/-- A header name, in lower case. -/
abbrev HeaderName := String

/-- The bytes of a header value. -/
abbrev HeaderValue := List UInt8

/-- A byte that a header value may hold: a tab, or anything from the space on but `DEL`. -/
def HeaderValue.validByte (b : UInt8) : Bool := b == 9 || (decide (32 ≤ b) && b != 127)

/-- What the checked constructors of `HeaderValue` ask for. -/
def HeaderValue.Valid (value : HeaderValue) : Prop :=
  ∀ b ∈ value, HeaderValue.validByte b = true

/-- `HeaderMap`: the entries in the order in which they were appended. -/
abbrev HeaderMap := List (HeaderName × HeaderValue)

def COOKIE : HeaderName := "cookie"

def SET_COOKIE : HeaderName := "set-cookie"

def CONTENT_LENGTH : HeaderName := "content-length"

def CONTENT_TYPE : HeaderName := "content-type"

/-- `HeaderMap::get_all`. -/
def HeaderMap.getAll (m : HeaderMap) (name : HeaderName) : List HeaderValue :=
  (m.filter (fun e => e.1 == name)).map (·.2)

/-- `HeaderMap::get`: the first value of the name. -/
def HeaderMap.get (m : HeaderMap) (name : HeaderName) : Option HeaderValue :=
  (m.find? (fun e => e.1 == name)).map (·.2)

/-- `HeaderMap::append`. -/
def HeaderMap.append (m : HeaderMap) (name : HeaderName) (value : HeaderValue) : HeaderMap :=
  m ++ [(name, value)]

/-- `HeaderMap::extend`: the entries are appended one by one. -/
def HeaderMap.extend (m : HeaderMap) (entries : List (HeaderName × HeaderValue)) : HeaderMap :=
  entries.foldl (fun m e => HeaderMap.append m e.1 e.2) m

/-- `HeaderMap::drain`: each name with its values. -/
def HeaderMap.drain (m : HeaderMap) : List (HeaderName × List HeaderValue) :=
  (m.map (·.1)).dedup.map (fun name => (name, HeaderMap.getAll m name))

structure Request where
  method : Method
  uri : Uri
  headers : HeaderMap

structure Response (B : Type) where
  status : Nat
  headers : HeaderMap
  body : B

/-- `Response::map`. -/
def Response.map {B C : Type} (f : B → C) (r : Response B) : Response C :=
  ⟨r.status, r.headers, f r.body⟩

/-! ## Header maps -/

namespace HeaderMap

theorem extend_eq (m : HeaderMap) (entries : List (HeaderName × HeaderValue)) :
    extend m entries = m ++ entries := by
  unfold extend
  induction entries generalizing m with
  | nil => simp
  | cons e es ih => rw [List.foldl_cons, ih]; simp [append]

@[simp] theorem getAll_append_list (m n : HeaderMap) (name : HeaderName) :
    getAll (m ++ n) name = getAll m name ++ getAll n name := by
  simp [getAll]

theorem getAll_append (m : HeaderMap) (name name' : HeaderName) (value : HeaderValue) :
    getAll (append m name value) name' =
      getAll m name' ++ (if name = name' then [value] else []) := by
  rw [append, getAll_append_list]
  by_cases h : name = name' <;> simp [getAll, h]

end HeaderMap

end Finchers
