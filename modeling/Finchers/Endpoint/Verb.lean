import Finchers.Endpoint.Tree
import Finchers.Lib.BitFlags

/-!
# Sets of HTTP methods

`Verbs` keeps a set of the standard methods as bits.  A method is turned into its flag by
`single`, tested by `contains`, and read back by the iterator `VerbsIter`, which shifts a cursor
over the flags; `verbs(allowed)` is the endpoint that checks the method of a request.

* `UnionOf.contains_iff` — the union of `single`s contains the standard methods among them;
* `Verbs.toList_eq` — **the iterator yields every method of the set but `TRACE`**: the cursor is
  shifted before it is tested, and past the last flag it is empty;
* `verbs_agree_iff` — the methods contained, those iterated and those accepted are the same iff
  `TRACE` is not among them.
-/

set_option autoImplicit false

namespace Finchers

open Resumable

/-! ## The set -/

/-- The bits of all flags of `Methods`. -/
def Methods.ALL : BitVec 32 := 0b000111111111#32

/-- The flags behind `Verbs`. -/
abbrev Methods := BitFlags Methods.ALL

namespace Methods

def GET : Methods := ⟨0b000000000001#32, by decide⟩
def POST : Methods := ⟨0b000000000010#32, by decide⟩
def PUT : Methods := ⟨0b000000000100#32, by decide⟩
def DELETE : Methods := ⟨0b000000001000#32, by decide⟩
def HEAD : Methods := ⟨0b000000010000#32, by decide⟩
def OPTIONS : Methods := ⟨0b000000100000#32, by decide⟩
def CONNECT : Methods := ⟨0b000001000000#32, by decide⟩
def PATCH : Methods := ⟨0b000010000000#32, by decide⟩
def TRACE : Methods := ⟨0b000100000000#32, by decide⟩

/-- The list that the macros of `single`, `contains` and `next` go through. -/
def table : List (Method × Methods) :=
  [(.get, GET), (.post, POST), (.put, PUT), (.delete, DELETE), (.head, HEAD),
    (.options, OPTIONS), (.connect, CONNECT), (.patch, PATCH), (.trace, TRACE)]

/-- `dump_method!`: the first method whose flag is set. -/
def dumpMethod (m : Methods) : Option Method :=
  (table.find? (fun e => m.contains e.2)).map (·.1)

end Methods

/-- A set of allowed HTTP methods. -/
structure Verbs where
  methods : Methods
  deriving DecidableEq, Repr

namespace Verbs

/-- `Verbs::single`. -/
def single (method : Method) : Option Verbs :=
  (Methods.table.find? (fun e => method == e.1)).map (fun e => ⟨e.2⟩)

/-- `Verbs::any`. -/
def any : Verbs := ⟨⟨Methods.ALL, by decide⟩⟩

/-- `Verbs::contains`. -/
def contains (self : Verbs) (method : Method) : Bool :=
  match Methods.table.find? (fun e => method == e.1) with
  | some e => self.methods.contains e.2
  | none => false

/-- `BitOr`, and `BitOrAssign`. -/
def bitor (self other : Verbs) : Verbs := ⟨self.methods.union other.methods⟩

end Verbs

structure VerbsIter where
  allowed : Methods
  cursor : Methods

/-- `IntoIterator for Verbs`. -/
def Verbs.intoIter (self : Verbs) : VerbsIter := ⟨self.methods, Methods.GET⟩

namespace VerbsIter

/-- `Iterator::next`: one round of the loop is one unfolding. -/
def next (self : VerbsIter) : Option Method × VerbsIter :=
  let masked := self.allowed.inter self.cursor
  let cursor := self.cursor.advance
  if _h : cursor.isEmpty then (none, ⟨self.allowed, cursor⟩)
  else
    match Methods.dumpMethod masked with
    | some m => (some m, ⟨self.allowed, cursor⟩)
    | none => next ⟨self.allowed, cursor⟩
termination_by self.cursor.rank
decreasing_by exact BitFlags.rank_advance_lt (by simpa using _h)

/-- One round of the loop. -/
theorem next_eq (self : VerbsIter) :
    self.next =
      if self.cursor.advance.isEmpty then (none, ⟨self.allowed, self.cursor.advance⟩)
      else
        match Methods.dumpMethod (self.allowed.inter self.cursor) with
        | some m => (some m, ⟨self.allowed, self.cursor.advance⟩)
        | none => next ⟨self.allowed, self.cursor.advance⟩ := by
  rw [next]
  rfl

/-- A method is only yielded with the cursor further on. -/
theorem rank_next_lt {self : VerbsIter} (h : self.next.1.isSome = true) :
    self.next.2.cursor.rank < self.cursor.rank := by
  induction self using next.induct with
  | case1 self cursor hempty =>
    rw [next_eq, if_pos hempty] at h
    cases h
  | case2 self masked cursor hempty m' hdump =>
    rw [next_eq, if_neg hempty, hdump]
    exact BitFlags.rank_advance_lt (by simpa using hempty)
  | case3 self masked cursor hempty hdump ih =>
    rw [next_eq, if_neg hempty, hdump] at h ⊢
    have hlt : self.cursor.advance.rank < self.cursor.rank :=
      BitFlags.rank_advance_lt (by simpa using hempty)
    exact (ih h).trans hlt

/-- All methods that the iterator yields until it ends. -/
def collect (self : VerbsIter) : List Method :=
  if h : self.next.1.isSome then self.next.1.get h :: collect self.next.2 else []
termination_by self.cursor.rank
decreasing_by exact rank_next_lt h

end VerbsIter

/-- The methods that iterating the set yields. -/
def Verbs.toList (self : Verbs) : List Method := self.intoIter.collect

/-! ## The endpoints -/

variable {ε Bd Env : Type}

/-- `MatchVerbsAction`. -/
def MatchVerbsAction : OneshotAction ε Verbs [] where
  preflight allowed cx :=
    if allowed.contains cx.context.request.method then .ok (.ok (), cx.cursor)
    else .ok (.error (.methodNotAllowed "invalid method"), cx.cursor)

/-- `verbs(allowed)`. -/
def verbs (allowed : Verbs) : Endpoint ε Bd Env [] := .oneshot Verbs MatchVerbsAction allowed

/-- The actions that `define_verbs!` makes, each for one method. -/
def MatchVerbAction (method : Method) : OneshotAction ε Unit [] where
  preflight _ cx :=
    if cx.context.request.method = method then .ok (.ok (), cx.cursor)
    else .ok (.error (.methodNotAllowed "invalid method"), cx.cursor)

namespace Verb

def get : Endpoint ε Bd Env [] := .oneshot Unit (MatchVerbAction .get) ()
def post : Endpoint ε Bd Env [] := .oneshot Unit (MatchVerbAction .post) ()
def put : Endpoint ε Bd Env [] := .oneshot Unit (MatchVerbAction .put) ()
def delete : Endpoint ε Bd Env [] := .oneshot Unit (MatchVerbAction .delete) ()
def head : Endpoint ε Bd Env [] := .oneshot Unit (MatchVerbAction .head) ()
def options : Endpoint ε Bd Env [] := .oneshot Unit (MatchVerbAction .options) ()
def connect : Endpoint ε Bd Env [] := .oneshot Unit (MatchVerbAction .connect) ()
def patch : Endpoint ε Bd Env [] := .oneshot Unit (MatchVerbAction .patch) ()
def trace : Endpoint ε Bd Env [] := .oneshot Unit (MatchVerbAction .trace) ()

end Verb

/-! ## Flags -/

namespace Methods

/-- The standard method whose flag is bit `i`. -/
def method (i : Fin 9) : Method := (table.get i).1

/-- The flag at bit `i`. -/
def flag (i : Fin 9) : Methods := (table.get i).2

theorem isFlag : ∀ i : Fin 9, (flag i).IsFlag i := by decide

theorem table_eq : table = (List.finRange 9).map (fun i => (method i, flag i)) := by decide

theorem method_inj : ∀ i j : Fin 9, method i = method j ↔ i = j := by decide

/-- Under the cursor at a flag, the method of this flag is found if it is set. -/
theorem dumpMethod_inter (allowed : Methods) (i : Fin 9) :
    dumpMethod (allowed.inter (flag i)) =
      if allowed.contains (flag i) then some (method i) else none := by
  have hc (j : Fin 9) : (allowed.inter (flag i)).contains (flag j) =
      (decide (i = j) && allowed.contains (flag i)) := by
    rw [BitFlags.contains_inter allowed (isFlag i) (isFlag j)]
    simp [Fin.ext_iff]
  have hfind : ∀ i : Fin 9, (List.finRange 9).find? (fun j => decide (i = j)) = some i := by decide
  rw [dumpMethod, table_eq, List.find?_map, Option.map_map]
  simp only [Function.comp_def, hc]
  by_cases h : allowed.contains (flag i) = true
  · simp [h, hfind]
  · simp [h]

theorem advance_flag (i : Fin 8) : (flag i.castSucc).advance = flag i.succ :=
  BitFlags.advance_flag (isFlag i.castSucc) (isFlag i.succ)

/-- Past the last flag there is nothing. -/
theorem advance_last : (flag (Fin.last 8)).advance.isEmpty = true := by decide

end Methods

/-- Every method is a standard one or an extension. -/
theorem Method.standard_or_extension (m : Method) :
    (∃ i, m = Methods.method i) ∨ ∃ name, m = .extension name := by
  cases m with
  | get => exact Or.inl ⟨0, rfl⟩
  | post => exact Or.inl ⟨1, rfl⟩
  | put => exact Or.inl ⟨2, rfl⟩
  | delete => exact Or.inl ⟨3, rfl⟩
  | head => exact Or.inl ⟨4, rfl⟩
  | options => exact Or.inl ⟨5, rfl⟩
  | connect => exact Or.inl ⟨6, rfl⟩
  | patch => exact Or.inl ⟨7, rfl⟩
  | trace => exact Or.inl ⟨8, rfl⟩
  | extension name => exact Or.inr ⟨name, rfl⟩

/-- A method with a flag of its own. -/
def Method.Standard (m : Method) : Prop := ∃ i, m = Methods.method i

/-! ## The set of a union -/

namespace Verbs

/-- The table finds a standard method at its flag. -/
theorem find_table (i : Fin 9) :
    Methods.table.find? (fun e => Methods.method i == e.1) =
      some (Methods.method i, Methods.flag i) := by
  revert i
  decide

@[simp] theorem single_method (i : Fin 9) : single (Methods.method i) = some ⟨Methods.flag i⟩ := by
  rw [single, find_table, Option.map_some]

@[simp] theorem single_extension (name : String) : single (.extension name) = none := rfl

@[simp] theorem contains_method (V : Verbs) (i : Fin 9) :
    V.contains (Methods.method i) = V.methods.contains (Methods.flag i) := by
  rw [contains, find_table]

@[simp] theorem contains_extension (V : Verbs) (name : String) :
    V.contains (.extension name) = false := rfl

theorem standard_of_contains {V : Verbs} {m : Method} (h : V.contains m = true) : m.Standard := by
  rcases m.standard_or_extension with hm | ⟨name, rfl⟩
  · exact hm
  · cases h

/-- `V` is the union of `single(m)` over the methods of a list for which it is defined, taken in
any order and grouping. -/
inductive UnionOf : Verbs → List Method → Prop where
  | single {V : Verbs} {m : Method} : Verbs.single m = some V → UnionOf V [m]
  | undefined {V : Verbs} {m : Method} {ms : List Method} :
      Verbs.single m = none → UnionOf V ms → UnionOf V (m :: ms)
  | bitor {V W : Verbs} {ms ns : List Method} :
      UnionOf V ms → UnionOf W ns → UnionOf (V.bitor W) (ms ++ ns)
  | perm {V : Verbs} {ms ns : List Method} : UnionOf V ms → ms.Perm ns → UnionOf V ns

theorem contains_bitor (V W : Verbs) (m : Method) :
    (V.bitor W).contains m = (V.contains m || W.contains m) := by
  rcases m.standard_or_extension with ⟨i, rfl⟩ | ⟨name, rfl⟩
  · simp only [contains_method]
    exact BitFlags.contains_union _ _ (Methods.isFlag i)
  · rfl

theorem contains_single {V : Verbs} {m : Method} (h : single m = some V) (m' : Method) :
    V.contains m' = true ↔ m' = m := by
  rcases m.standard_or_extension with ⟨i, rfl⟩ | ⟨name, rfl⟩
  · rw [single_method, Option.some.injEq] at h
    subst h
    rcases m'.standard_or_extension with ⟨j, rfl⟩ | ⟨name, rfl⟩
    · rw [contains_method, BitFlags.contains_flag (Methods.isFlag i) (Methods.isFlag j),
        decide_eq_true_eq, Methods.method_inj, Fin.ext_iff, eq_comm]
    · simp only [contains_extension, Bool.false_eq_true, false_iff]
      intro heq
      have hsingle := congrArg single heq
      simp at hsingle
  · cases h

/-- **A union contains exactly the standard methods it was made of.** -/
theorem UnionOf.contains_iff {V : Verbs} {ms : List Method} (h : UnionOf V ms) (m : Method) :
    V.contains m = true ↔ m ∈ ms ∧ m.Standard := by
  induction h with
  | single hs =>
    rw [contains_single hs, List.mem_singleton]
    refine ⟨fun heq => ⟨heq, ?_⟩, fun hm => hm.1⟩
    exact standard_of_contains ((contains_single hs m).mpr heq)
  | @undefined V m' ms hn _ ih =>
    rw [ih, List.mem_cons]
    refine ⟨fun hm => ⟨Or.inr hm.1, hm.2⟩, fun hm => ⟨hm.1.resolve_left ?_, hm.2⟩⟩
    obtain ⟨i, hi⟩ := hm.2
    rintro rfl
    rw [hi, single_method] at hn
    cases hn
  | bitor _ _ ih1 ih2 =>
    rw [contains_bitor, Bool.or_eq_true, ih1, ih2, List.mem_append]
    tauto
  | perm _ hp ih => rw [ih, hp.mem_iff]

/-! ## Iterating -/

/-- The iterator with its cursor at a flag that is not the last one. -/
theorem next_flag (allowed : Methods) (i : Fin 8) :
    VerbsIter.next ⟨allowed, Methods.flag i.castSucc⟩ =
      if allowed.contains (Methods.flag i.castSucc) then
        (some (Methods.method i.castSucc), ⟨allowed, Methods.flag i.succ⟩)
      else VerbsIter.next ⟨allowed, Methods.flag i.succ⟩ := by
  rw [VerbsIter.next_eq]
  simp only [Methods.advance_flag, (Methods.isFlag i.succ).not_isEmpty, Methods.dumpMethod_inter,
    Bool.false_eq_true, if_false]
  split <;> simp_all

theorem next_last (allowed : Methods) :
    (VerbsIter.next ⟨allowed, Methods.flag (Fin.last 8)⟩).1 = none := by
  rw [VerbsIter.next_eq, if_pos Methods.advance_last]

theorem collect_congr {self it : VerbsIter} (h : self.next = it.next) :
    self.collect = it.collect := by
  rw [VerbsIter.collect, VerbsIter.collect.eq_def it]
  simp only [h]

theorem collect_flag (allowed : Methods) (i : Fin 8) :
    VerbsIter.collect ⟨allowed, Methods.flag i.castSucc⟩ =
      (if allowed.contains (Methods.flag i.castSucc) then [Methods.method i.castSucc] else []) ++
        VerbsIter.collect ⟨allowed, Methods.flag i.succ⟩ := by
  have hnext := next_flag allowed i
  by_cases h : allowed.contains (Methods.flag i.castSucc) = true
  · rw [if_pos h] at hnext ⊢
    rw [VerbsIter.collect]
    simp [hnext]
  · rw [if_neg h] at hnext ⊢
    exact collect_congr hnext

/-- The methods that the iterator can yield: all but the last one. -/
def yieldable : List Method := (List.finRange 8).map (fun i => Methods.method i.castSucc)

theorem collect_drop (allowed : Methods) (n : Nat) (hn : n ≤ 8) :
    VerbsIter.collect ⟨allowed, Methods.flag ⟨n, by omega⟩⟩ =
      (yieldable.drop n).filter (Verbs.mk allowed).contains := by
  induction hn using Nat.decreasingInduction with
  | self =>
    rw [VerbsIter.collect, dif_neg]
    · rfl
    · have hlast : (VerbsIter.next ⟨allowed, Methods.flag ⟨8, by omega⟩⟩).1 = none :=
        next_last allowed
      rw [hlast]
      exact Bool.false_ne_true
  | of_succ k hk ih =>
    have hlen : k < yieldable.length := hk
    rw [List.drop_eq_getElem_cons hlen, List.filter_cons, ← ih]
    have hget : yieldable[k] = Methods.method (Fin.castSucc ⟨k, hk⟩) := by
      simp [yieldable]
    have hstep := collect_flag allowed ⟨k, hk⟩
    simp only [Fin.castSucc_mk, Fin.succ_mk] at hstep hget
    rw [hstep, hget, contains_method]
    split <;> rfl

/-- **What iterating yields**: the methods of the set but the last one, in the order of their
flags. -/
theorem toList_eq (V : Verbs) : V.toList = yieldable.filter V.contains :=
  collect_drop V.methods 0 (by omega)

theorem mem_yieldable_iff {m : Method} (hm : m.Standard) : m ∈ yieldable ↔ m ≠ .trace := by
  obtain ⟨i, rfl⟩ := hm
  revert i
  decide

theorem nodup_toList (V : Verbs) : V.toList.Nodup := by
  have hnodup : yieldable.Nodup := by decide
  rw [toList_eq]
  exact hnodup.filter _

theorem mem_toList_iff (V : Verbs) (m : Method) :
    m ∈ V.toList ↔ V.contains m = true ∧ m ≠ .trace := by
  rw [toList_eq, List.mem_filter]
  constructor
  · rintro ⟨hy, hc⟩
    exact ⟨hc, (mem_yieldable_iff (standard_of_contains hc)).mp hy⟩
  · rintro ⟨hc, hne⟩
    exact ⟨(mem_yieldable_iff (standard_of_contains hc)).mpr hne, hc⟩

end Verbs

/-! ## The endpoint -/

/-- `preflight` of a new action of the endpoint succeeds. -/
def Endpoint.Accepts {ts : List Type} (e : Endpoint ε Bd Env ts) (cx : PreflightContext) : Prop :=
  ∃ l x s c, e.preflight cx = ⟨l, .ok (.ok x, s, c)⟩

theorem Endpoint.oneshot_accepts_iff {σ : Type} {ts : List Type} {a : OneshotAction ε σ ts}
    {init : σ} {cx : PreflightContext} {r : Except (Error ε) (HList ts)} {c : CursorInner}
    (h : a.preflight init cx = .ok (r, c)) :
    (Endpoint.oneshot σ a init : Endpoint ε Bd Env ts).Accepts cx ↔ ∃ x, r = .ok x := by
  have hpre : (Endpoint.oneshot σ a init : Endpoint ε Bd Env ts).preflight cx =
      ⟨[⟨[], .preflight cx.cursor (.of (r.map Preflight.completed))⟩],
        .ok (r.map Preflight.completed, none, c)⟩ := by
    simp only [Endpoint.preflight, Endpoint.impl, Endpoint.spawn, OneshotAction.action, h]
    rfl
  rw [Endpoint.Accepts, hpre]
  cases r with
  | ok x => exact ⟨fun _ => ⟨x, rfl⟩, fun _ => ⟨_, _, _, _, rfl⟩⟩
  | error e =>
    constructor
    · rintro ⟨l, x, s, c, heq⟩
      cases congrArg Traced.res heq
    · rintro ⟨x, heq⟩
      cases heq

theorem verbs_accepts_iff (V : Verbs) (cx : PreflightContext) :
    (verbs V : Endpoint ε Bd Env []).Accepts cx ↔ V.contains cx.context.request.method = true := by
  by_cases h : V.contains cx.context.request.method = true
  · have hpre : (MatchVerbsAction (ε := ε)).preflight V cx = .ok (.ok (), cx.cursor) := if_pos h
    rw [verbs, Endpoint.oneshot_accepts_iff hpre]
    exact ⟨fun _ => h, fun _ => ⟨(), rfl⟩⟩
  · have hpre : (MatchVerbsAction (ε := ε)).preflight V cx =
        .ok (.error (.methodNotAllowed "invalid method"), cx.cursor) := if_neg h
    rw [verbs, Endpoint.oneshot_accepts_iff hpre]
    simp [h]

/-- The endpoint of a single method accepts what `verbs` accepts with this method alone. -/
theorem verb_accepts_iff {V : Verbs} {m : Method} (hV : Verbs.single m = some V)
    (cx : PreflightContext) :
    (Endpoint.oneshot Unit (MatchVerbAction m) () : Endpoint ε Bd Env []).Accepts cx ↔
      (verbs V : Endpoint ε Bd Env []).Accepts cx := by
  rw [verbs_accepts_iff, Verbs.contains_single hV]
  by_cases h : cx.context.request.method = m
  · have hpre : (MatchVerbAction (ε := ε) m).preflight () cx = .ok (.ok (), cx.cursor) := if_pos h
    rw [Endpoint.oneshot_accepts_iff hpre]
    exact ⟨fun _ => h, fun _ => ⟨(), rfl⟩⟩
  · have hpre : (MatchVerbAction (ε := ε) m).preflight () cx =
        .ok (.error (.methodNotAllowed "invalid method"), cx.cursor) := if_neg h
    rw [Endpoint.oneshot_accepts_iff hpre]
    simp [h]

/-! ## The three encodings -/

/-- The methods that `V` contains are the standard ones of `ms`, iterating `V` yields exactly
these, each once, and the endpoint for `V` accepts the requests with one of the iterated methods. -/
structure Verbs.Agrees (ε Bd Env : Type) (V : Verbs) (ms : List Method) : Prop where
  contains : ∀ m, V.contains m = true ↔ m ∈ ms ∧ m.Standard
  nodup : V.toList.Nodup
  yields : ∀ m, m ∈ V.toList ↔ m ∈ ms ∧ m.Standard
  accepts : ∀ cx, (verbs V : Endpoint ε Bd Env []).Accepts cx ↔
    cx.context.request.method ∈ V.toList

/-- **The three encodings of a union agree iff `TRACE` is not in it.** -/
theorem verbs_agree_iff (ε Bd Env : Type) {V : Verbs} {ms : List Method} (h : V.UnionOf ms) :
    V.Agrees ε Bd Env ms ↔ Method.trace ∉ ms := by
  have hlist (m : Method) : m ∈ V.toList ↔ (m ∈ ms ∧ m.Standard) ∧ m ≠ .trace := by
    rw [V.mem_toList_iff, h.contains_iff]
  constructor
  · intro hagrees hmem
    have htrace := (hagrees.yields .trace).mpr ⟨hmem, 8, rfl⟩
    exact ((hlist .trace).mp htrace).2 rfl
  · intro hnot
    have hne {m : Method} (hm : m ∈ ms) : m ≠ .trace := by
      rintro rfl
      exact hnot hm
    refine ⟨h.contains_iff, V.nodup_toList, fun m => ?_, fun cx => ?_⟩
    · rw [hlist]
      exact ⟨fun hm => hm.1, fun hm => ⟨hm, hne hm.1⟩⟩
    · rw [verbs_accepts_iff, V.mem_toList_iff, h.contains_iff]
      exact ⟨fun hm => ⟨hm, hne hm.1⟩, fun hm => hm.1⟩

/-- `GET | POST`, from a list with a repetition and an extension method. -/
theorem verbs_agree_get_post :
    (Verbs.bitor ⟨Methods.GET⟩ (.bitor ⟨Methods.POST⟩ ⟨Methods.GET⟩)).Agrees Empty Unit Unit
      [.get, .extension "PURGE", .post, .get] :=
  (verbs_agree_iff Empty Unit Unit (.bitor (.single rfl)
    (.undefined rfl (.bitor (.single rfl) (.single rfl))))).mpr (by decide)

/-- `TRACE` alone: it is contained and accepted, but iterating yields nothing. -/
theorem verbs_disagree_trace :
    (Verbs.mk Methods.TRACE).UnionOf [.trace] ∧
      ¬ (Verbs.mk Methods.TRACE).Agrees Empty Unit Unit [.trace] := by
  refine ⟨.single rfl, fun h => ?_⟩
  have hmem := (h.yields .trace).mpr ⟨by decide, 8, rfl⟩
  exact ((Verbs.mem_toList_iff _ _).mp hmem).2 rfl

end Finchers
