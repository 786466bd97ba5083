import Finchers.Session.Backend
import Finchers.Lib.Digits

/-!
# The texts of ids

An id is written with hexadecimal digits in groups, hyphens between them.

* `UuidText.RoundTrips` — ids are read back from their texts;
* `Hyphenated.roundTrips` — the hyphenated texts are read back.
-/

set_option autoImplicit false

namespace Finchers.Session

/-- The texts of ids can be read back. -/
def UuidText.RoundTrips (text : UuidText) : Prop := ∀ id, text.parse (text.display id) = .ok id

namespace Hyphenated

open FixedWidth

/-- Put hyphens between groups of the given lengths. -/
def hyphenate : List Nat → Str → Str
  | [], ds => ds
  | n :: ns, ds => ds.take n ++ '-' :: hyphenate ns (ds.drop n)

theorem filter_noHyphen {ds : Str} (h : ∀ d ∈ ds, d ≠ '-') : ds.filter (fun d => d != '-') = ds := by
  rw [List.filter_eq_self]
  intro d hd
  simpa using h d hd

theorem filter_hyphenate (ns : List Nat) {ds : Str} (h : ∀ d ∈ ds, d ≠ '-') :
    (hyphenate ns ds).filter (fun d => d != '-') = ds := by
  induction ns generalizing ds with
  | nil => exact filter_noHyphen h
  | cons n ns ih =>
    have htake : (ds.take n).filter (fun d => d != '-') = ds.take n :=
      filter_noHyphen fun d hd => h d (List.mem_of_mem_take hd)
    have hdrop : (hyphenate ns (ds.drop n)).filter (fun d => d != '-') = ds.drop n :=
      ih fun d hd => h d (List.mem_of_mem_drop hd)
    rw [hyphenate, List.filter_append, htake, List.filter_cons_of_neg (by decide), hdrop,
      List.take_append_drop]

/-- The value of a hexadecimal digit. -/
def hexVal (c : Char) : Option Nat :=
  if '0' ≤ c ∧ c ≤ '9' then some (c.toNat - 48)
  else if 'a' ≤ c ∧ c ≤ 'f' then some (c.toNat - 87)
  else if 'A' ≤ c ∧ c ≤ 'F' then some (c.toNat - 55)
  else none

theorem hexVal_digitChar : ∀ n < 16, hexVal n.digitChar = some n ∧ n.digitChar ≠ '-' := by decide

theorem mapM_hexVal {ns : List Nat} (h : ∀ n ∈ ns, n < 16) :
    (ns.map Nat.digitChar).mapM hexVal = some ns := by
  induction ns with
  | nil => rfl
  | cons n ns ih =>
    have hn := (hexVal_digitChar n (h n List.mem_cons_self)).1
    have hns := ih fun m hm => h m (List.mem_cons_of_mem n hm)
    simp [hn, hns]

/-- `Uuid::to_string`. -/
def display (id : Uuid) : Str :=
  hyphenate [8, 4, 4, 4] ((digits 16 32 id.toNat).map Nat.digitChar)

/-- `Uuid::parse_str`: the digits, with hyphens between the groups or without any. -/
def parse (s : Str) : Except String Uuid :=
  let ds := s.filter (fun d => d != '-')
  match ds.mapM hexVal with
  | some ns =>
    if ns.length = 32 ∧ (s = ds ∨ s = hyphenate [8, 4, 4, 4] ds) then
      .ok (BitVec.ofNat 128 (ofDigits 16 ns))
    else .error "invalid length"
  | none => .error "invalid character"

def text : UuidText := ⟨parse, display⟩

theorem parse_hyphenate {ns : List Nat} (hns : ∀ n ∈ ns, n < 16) (hlen : ns.length = 32) :
    parse (hyphenate [8, 4, 4, 4] (ns.map Nat.digitChar)) =
      .ok (BitVec.ofNat 128 (ofDigits 16 ns)) := by
  have hds : ∀ d ∈ ns.map Nat.digitChar, d ≠ '-' := by
    intro d hd
    obtain ⟨n, hn, rfl⟩ := List.mem_map.mp hd
    exact (hexVal_digitChar n (hns n hn)).2
  unfold parse
  rw [filter_hyphenate _ hds]
  simp only [mapM_hexVal hns]
  exact if_pos ⟨hlen, Or.inr trivial⟩

theorem roundTrips : text.RoundTrips := by
  intro id
  have hid : id.toNat < 16 ^ 32 := by
    have hlt := id.isLt
    omega
  have hparse := parse_hyphenate (lt_of_mem_digits (by decide) 32 id.toNat)
    (length_digits 16 32 id.toNat)
  rw [ofDigits_digits hid, BitVec.ofNat_toNat, BitVec.setWidth_eq] at hparse
  simp only [text, display]
  rw [hparse]

end Hyphenated

/-- Hyphenated texts, and no date. -/
def hyphenated : Externals := ⟨Hyphenated.text, []⟩

end Finchers.Session
