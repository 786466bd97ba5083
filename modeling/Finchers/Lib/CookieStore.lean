import Mathlib.Data.List.Sort

/-!
# The cookie store of a user agent

What a user agent keeps of the cookies it is sent, and which of them it sends back.  A stored cookie is
identified by its name, its domain and its path; where a response does not say, the domain is the host
of the request and the path is the directory of its path.

* `domainMatch`, `defaultPath`, `pathMatch` — the algorithms on hosts and paths;
* `receive` — a cookie of a response is stored, replaces the one with its identity, or removes it if
  it is expired;
* `sent` — the cookies that go with a request;
* `mem_receive_expired` — **an expired cookie removes the one with its identity, and no other.**
-/

set_option autoImplicit false

namespace CookieStore

abbrev Text := List Char

/-- Where a request goes; `isIp` says that the host is an address and not a name. -/
structure Target where
  host : Text
  isIp : Bool
  path : Text
  secure : Bool
  deriving DecidableEq, Repr

structure Stored where
  name : Text
  value : Text
  domain : Text
  hostOnly : Bool
  path : Text
  secureOnly : Bool
  deriving DecidableEq, Repr

/-- A cookie of a response, with its attributes. -/
structure SetCookie where
  name : Text
  value : Text
  domain : Option Text
  path : Option Text
  secure : Bool
  expired : Bool
  deriving DecidableEq, Repr

/-- The canonical form of a host. -/
def canonical (host : Text) : Text := host.map Char.toLower

/-- A host matches a domain if it is the domain, or a name below it. -/
def domainMatch (host : Text) (isIp : Bool) (domain : Text) : Bool :=
  host == domain || (!isIp && ('.' :: domain).isSuffixOf host)

/-- A path up to its last `/`, without it. -/
def directory (path : Text) : Text := (path.reverse.dropWhile (· != '/')).tail.reverse

/-- The path of a cookie without a `Path` attribute. -/
def defaultPath (path : Text) : Text :=
  if path.head? = some '/' ∧ directory path ≠ [] then directory path else ['/']

/-- The path of a request matches the path of a cookie. -/
def pathMatch (path cookiePath : Text) : Bool :=
  path == cookiePath ||
    (cookiePath.isPrefixOf path &&
      (cookiePath.getLast? == some '/' || path[cookiePath.length]? == some '/'))

/-- The domain that an attribute stands for; one without a value is ignored. -/
def domainOf (domain : Option Text) : Option Text :=
  match domain with
  | none => none
  | some d =>
    let d := canonical (if d.head? = some '.' then d.tail else d)
    if d = [] then none else some d

/-- The domain of a cookie, and whether it is for this host only; a cookie for a domain that the host
does not match is refused. -/
def cookieDomain (t : Target) (domain : Option Text) : Option (Text × Bool) :=
  match domainOf domain with
  | none => some (canonical t.host, true)
  | some d => if domainMatch (canonical t.host) t.isIp d then some (d, false) else none

/-- The path of a cookie. -/
def cookiePath (t : Target) (path : Option Text) : Text :=
  match path with
  | some ('/' :: p) => '/' :: p
  | _ => defaultPath t.path

/-- The two have the same name, domain and path. -/
def Stored.same (c d : Stored) : Bool := c.name == d.name && c.domain == d.domain && c.path == d.path

/-- What is stored of a cookie of the response to a request. -/
def SetCookie.stored (c : SetCookie) (t : Target) : Option Stored :=
  (cookieDomain t c.domain).map fun (domain, hostOnly) =>
    ⟨c.name, c.value, domain, hostOnly, cookiePath t c.path, c.secure⟩

/-- A stored cookie takes the place of the one with its identity. -/
def insert (store : List Stored) (d : Stored) : List Stored :=
  if store.any (·.same d) then store.map fun e => if e.same d then d else e else store ++ [d]

/-- A cookie of the response to a request. -/
def receive (store : List Stored) (t : Target) (c : SetCookie) : List Stored :=
  match c.stored t with
  | none => store
  | some d => if c.expired then store.filter fun e => !e.same d else insert store d

/-- The cookie goes with a request. -/
def Stored.goesWith (d : Stored) (t : Target) : Bool :=
  (if d.hostOnly then canonical t.host == d.domain
    else domainMatch (canonical t.host) t.isIp d.domain) &&
  pathMatch t.path d.path && (!d.secureOnly || t.secure)

/-- The cookies that go with a request: longer paths first, and older ones before newer ones. -/
def sent (store : List Stored) (t : Target) : List Stored :=
  (store.filter (·.goesWith t)).insertionSort fun d e => e.path.length ≤ d.path.length

variable {store : List Stored} {t : Target} {c : SetCookie} {d e : Stored}

theorem same_iff : d.same e = true ↔ d.name = e.name ∧ d.domain = e.domain ∧ d.path = e.path := by
  simp [Stored.same, and_assoc]

theorem mem_sent : d ∈ sent store t ↔ d ∈ store ∧ d.goesWith t = true := by
  rw [sent, List.mem_insertionSort, List.mem_filter]

/-- The identity of what is stored of a cookie without a `Domain` attribute. -/
theorem stored_hostOnly (h : domainOf c.domain = none) :
    c.stored t = some ⟨c.name, c.value, canonical t.host, true, cookiePath t c.path, c.secure⟩ := by
  unfold SetCookie.stored cookieDomain
  rw [h]
  rfl

theorem name_of_stored (h : c.stored t = some d) : d.name = c.name := by
  obtain ⟨dom, -, rfl⟩ := Option.map_eq_some_iff.mp h
  rfl

/-- An expired cookie removes the one with its identity. -/
theorem mem_receive_expired (hc : c.expired = true) (hd : c.stored t = some d) :
    e ∈ receive store t c ↔ e ∈ store ∧ e.same d = false := by
  unfold receive
  rw [hd]
  simp [hc]

/-- A cookie is in the store because it was there before, or because it was received. -/
theorem mem_receive (h : e ∈ receive store t c) :
    e ∈ store ∨ (c.expired = false ∧ c.stored t = some e) := by
  unfold receive at h
  rcases hs : c.stored t with - | d
  · rw [hs] at h
    exact Or.inl h
  rw [hs] at h
  cases hc : c.expired with
  | true =>
    simp only [hc, if_true] at h
    exact Or.inl (List.mem_filter.mp h).1
  | false =>
    simp only [hc, Bool.false_eq_true, if_false, insert] at h
    split at h
    · obtain ⟨e', he', heq⟩ := List.mem_map.mp h
      split at heq
      · exact Or.inr ⟨rfl, congrArg some heq⟩
      · exact Or.inl (heq ▸ he')
    · rcases List.mem_append.mp h with h | h
      · exact Or.inl h
      · exact Or.inr ⟨rfl, congrArg some (List.mem_singleton.mp h).symm⟩

/-- The directory of `/shop/cart` is `/shop`, that of `/cart` is the root. -/
example : defaultPath "/shop/cart".toList = "/shop".toList ∧ defaultPath "/cart".toList = ['/'] := by
  decide

end CookieStore
