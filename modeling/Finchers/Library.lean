import Finchers.Safe
import Finchers.PathMacro
import Finchers.Endpoint.Verb
import Finchers.Endpoints.Body
import Finchers.Endpoints.Fs
import Finchers.Endpoints.Header
import Finchers.Endpoints.Query
import Finchers.Tungstenite.Handshake

/-!
# The endpoints of the library

* `OffPath`, `safe_offPath` — the endpoints that do not look at the path;
* `safe_segment` … `safe_path` — those that match it;
* `OpenNamedFile.Pollable` — between two polls, the future that opens a file has a path and is not
  done; `safe_file`, `safe_dir` follow;
* `Library` — what can be built from the endpoints of the library by its combinators;
* `Library.plainLeaves` — each leaf of it reads the path or ignores it;
* `library_never_panics_iff` — **no such endpoint ever panics, iff the request target has a path**.
-/

set_option autoImplicit false

namespace Finchers

open Resumable

variable {ε Env σ T : Type} {ts : List Type}

/-! ## Endpoints that do not look at the path -/

/-- `preflight` leaves the cursor where it is. -/
def OneshotAction.OffPath (a : OneshotAction ε σ ts) (init : σ) : Prop :=
  ∀ cx, ∃ r, a.preflight init cx = .ok (r, cx.cursor)

theorem safe_offPath {a : OneshotAction ε σ ts} {init : σ} (h : a.OffPath init) : a.Safe init := by
  intro cx _
  obtain ⟨r, hr⟩ := h cx
  exact ⟨r, cx.cursor, hr, .refl _⟩

theorem offPath_unit : (UnitAction (ε := ε)).OffPath () := fun _ => ⟨_, rfl⟩

theorem offPath_value (x : T) : (ValueAction (ε := ε) T).OffPath x := fun _ => ⟨_, rfl⟩

theorem offPath_verbs (allowed : Verbs) : (MatchVerbsAction (ε := ε)).OffPath allowed := by
  intro cx
  by_cases h : allowed.contains cx.context.request.method
  · exact ⟨_, if_pos h⟩
  · exact ⟨_, if_neg h⟩

theorem offPath_verb (method : Method) : (MatchVerbAction (ε := ε) method).OffPath () := by
  intro cx
  by_cases h : cx.context.request.method = method
  · exact ⟨_, if_pos h⟩
  · exact ⟨_, if_neg h⟩

theorem offPath_headerParse [FromHeaderValue T] (name : HeaderName) :
    (Header.ParseAction (ε := ε) T).OffPath name := by
  intro cx
  unfold Header.ParseAction
  cases h : Header.get cx name with
  | none => exact ⟨_, by simp only [h]; rfl⟩
  | some v => exact ⟨_, by simp only [h]; rfl⟩

theorem offPath_headerOptional [FromHeaderValue T] (name : HeaderName) :
    (Header.OptionalAction (ε := ε) T).OffPath name := by
  intro cx
  unfold Header.OptionalAction
  cases h : Header.get cx name with
  | none => exact ⟨_, by simp only [h]; rfl⟩
  | some v => exact ⟨_, by simp only [h]; rfl⟩

theorem offPath_headerMatches {V : Type} (eq : V → HeaderValue → Bool) (name : HeaderName) (v : V) :
    (Header.MatchesAction (ε := ε) eq).OffPath (name, v) := by
  intro cx
  unfold Header.MatchesAction
  cases h : Header.get cx name with
  | none => exact ⟨_, by simp only [h]; rfl⟩
  | some w =>
    by_cases heq : eq v w
    · exact ⟨_, by simp only [h, if_pos heq]; rfl⟩
    · exact ⟨_, by simp only [h, if_neg heq]; rfl⟩

theorem offPath_headerRaw (name : HeaderName) : (Header.RawAction (ε := ε)).OffPath name :=
  fun _ => ⟨_, rfl⟩

theorem offPath_queryRequired (fromStr : Str → Except String T) :
    (Query.RequiredAction (ε := ε) fromStr).OffPath () := by
  intro cx
  unfold Query.RequiredAction
  cases h : cx.context.request.uri.query with
  | none => exact ⟨_, by simp only [h]; rfl⟩
  | some query => exact ⟨_, by simp only [h]; rfl⟩

theorem offPath_queryOptional (fromStr : Str → Except String T) :
    (Query.OptionalAction (ε := ε) fromStr).OffPath () := by
  intro cx
  unfold Query.OptionalAction
  cases h : cx.context.request.uri.query with
  | none => exact ⟨_, by simp only [h]; rfl⟩
  | some query => exact ⟨_, by simp only [h]; rfl⟩

theorem offPath_queryRaw : (Query.RawAction (ε := ε)).OffPath () := fun _ => ⟨_, rfl⟩

/-! ## Endpoints that match the path -/

theorem safe_segment (m : MatchSegment) : (MatchSegmentAction (ε := ε)).Safe m := by
  intro cx hcx
  obtain ⟨s, c, hn, hc, -⟩ := hcx.nextSegment
  cases s with
  | none => exact ⟨_, c, by simp only [MatchSegmentAction, hn, bind, Except.bind]; rfl, hc⟩
  | some s => exact ⟨_, c, MatchSegmentAction.preflight_eq m hn, hc⟩

theorem safe_eos : (MatchEosAction (ε := ε)).Safe () := by
  intro cx hcx
  obtain ⟨s, c, hn, hc, -⟩ := hcx.nextSegment
  cases s with
  | none => exact ⟨_, c, by simp only [MatchEosAction, hn, bind, Except.bind]; rfl, hc⟩
  | some s => exact ⟨_, c, by simp only [MatchEosAction, hn, bind, Except.bind]; rfl, hc⟩

theorem safe_param [FromEncodedStr ε T] : (ParamAction (ε := ε) T).Safe () := by
  intro cx hcx
  obtain ⟨s, c, hn, hc, -⟩ := hcx.nextSegment
  cases s with
  | none => exact ⟨_, c, by simp only [ParamAction, hn, bind, Except.bind]; rfl, hc⟩
  | some s => exact ⟨_, c, ParamAction.preflight_eq T hn, hc⟩

theorem safe_remains [FromEncodedStr ε T] : (RemainsAction (ε := ε) T).Safe () := by
  intro cx hcx
  obtain ⟨b, n, c, hb, hn, hc, -⟩ := hcx.rest
  exact ⟨_, c, by simp only [RemainsAction, hb, hn, bind, Except.bind]; rfl, hc⟩

theorem Component.step_popsTo {P : PathTypes ε} (accepts : Str → Str → Bool)
    (comp : Component P.Ty) {cx : PreflightContext} (hcx : Cursor.Within cx.path cx.cursor) :
    ∃ x c, comp.step accepts cx = .ok (x, c) ∧ Cursor.PopsTo cx.path cx.cursor c := by
  cases comp with
  | static t =>
    obtain ⟨s, c, hn, hc, -⟩ := hcx.nextSegment
    exact ⟨_, c, by rw [Component.step, hn]; rfl, hc⟩
  | singleParam ty =>
    obtain ⟨s, c, hn, hc, -⟩ := hcx.nextSegment
    exact ⟨_, c, by rw [Component.step, hn]; rfl, hc⟩
  | catchAllParam ty =>
    obtain ⟨b, n, c, hb, hn, hc, -⟩ := hcx.rest
    exact ⟨_, c, by rw [Component.step, hb, hn]; rfl, hc⟩

/-- The components pop segments only from where the ones before them left the cursor. -/
theorem walk_popsTo {P : PathTypes ε} (accepts : Str → Str → Bool) (cs : List (Component P.Ty))
    {ts : List Type} (xs : HList ts) {cx : PreflightContext}
    (hcx : Cursor.Within cx.path cx.cursor) :
    ∃ x c, walk accepts xs cs cx = .ok (x, c) ∧ Cursor.PopsTo cx.path cx.cursor c := by
  induction cs generalizing ts cx with
  | nil => exact ⟨some xs, cx.cursor, rfl, .refl _⟩
  | cons comp cs ih =>
    obtain ⟨x, c, hstep, hc⟩ := comp.step_popsTo accepts hcx
    rw [walk, hstep]
    cases x with
    | none => exact ⟨none, c, rfl, hc⟩
    | some x =>
      have hnext : Cursor.Within (PreflightContext.mk cx.context c).path c := hc.within hcx
      obtain ⟨y, c', hrest, hc'⟩ := ih (xs.combine x) hnext
      exact ⟨y, c', hrest, hc.trans hc'⟩

theorem safe_path (P : PathTypes ε) (cs : List (Component P.Ty)) : (PathAction P cs).Safe () := by
  intro cx hcx
  obtain ⟨x, c, hwalk, hc⟩ := walk_popsTo acceptsRaw cs HList.nil hcx
  rw [← extractFrom_eq_walk] at hwalk
  rcases h : extractFrom P HList.nil cs cx with p | ⟨r, c'⟩
  · rw [h] at hwalk
    cases hwalk
  · rw [h] at hwalk
    cases hwalk
    exact ⟨r, c', h, hc⟩

/-! ## Endpoints with a poll -/

theorem safe_raw (Bd : Type) :
    (RawAction Bd : LeafAction ε Bd Env Unit [Bd]).Safe () fun _ => True where
  preflight cx _ := ⟨_, _, _, rfl, .refl cx.cursor, fun _ => trivial⟩
  poll _ _ _ := ⟨_, _, _, rfl, fun _ => trivial⟩

theorem safe_body (check : Request → Except (Error ε) Unit)
    (read : List UInt8 → Except (Error ε) T) (init : ReceiveAllState) :
    (bodyAction check read : LeafAction ε _ Env _ _).Safe init fun _ => True where
  preflight cx _ := ⟨_, _, _, rfl, .refl cx.cursor, fun _ => trivial⟩
  poll _ _ _ := ⟨_, _, _, rfl, fun _ => trivial⟩

section

variable {Bd Io : Type} {fs : FileSystem Io Env}

/-- The future that opens a file can be polled: it is not done, and it still has the path. -/
def OpenNamedFile.Pollable (self : OpenNamedFile) : Prop :=
  self.path.isSome ∧ self.state ≠ .done

theorem OpenNamedFile.pollable_open (path : Str) : (NamedFile.open path).Pollable :=
  ⟨rfl, by rintro ⟨⟩⟩

variable (fs) in
/-- The path is there when the metadata arrive, so that it can be unwrapped. -/
theorem OpenNamedFile.pollMetadata_pollable {self : OpenNamedFile} (h : self.Pollable) (env : Env) :
    ∃ r self' env', self.pollMetadata fs env = .ok (r, self', env') ∧
      (r = .ok .notReady → self'.Pollable) := by
  obtain ⟨path, hpath⟩ := Option.isSome_iff_exists.mp h.1
  unfold OpenNamedFile.pollMetadata
  rcases fs.pollMetadata (self.path.getD []) env with ⟨e | (⟨file, metadata⟩ | -), env'⟩
  · exact ⟨_, self, env', rfl, by rintro ⟨⟩⟩
  · exact ⟨_, ⟨.done, none⟩, env', by simp only [hpath]; rfl, by rintro ⟨⟩⟩
  · exact ⟨_, self, env', rfl, fun _ => h⟩

variable (fs) in
theorem OpenNamedFile.poll_pollable {self : OpenNamedFile} (h : self.Pollable) (env : Env) :
    ∃ r self' env', self.poll fs env = .ok (r, self', env') ∧
      (r = .ok .notReady → self'.Pollable) := by
  unfold OpenNamedFile.poll
  cases hstate : self.state with
  | done => exact (h.2 hstate).elim
  | metadata => exact pollMetadata_pollable fs h env
  | opening path =>
    rcases hopen : fs.pollOpen path env with ⟨e | (⟨⟩ | -), env'⟩
    · exact ⟨_, self, env', by simp only [hopen]; rfl, by rintro ⟨⟩⟩
    · have hnext : OpenNamedFile.Pollable { self with state := .metadata } := ⟨h.1, by rintro ⟨⟩⟩
      obtain ⟨r, self', env'', hmeta, hP⟩ := pollMetadata_pollable fs hnext env'
      exact ⟨r, self', env'', by simp only [hopen, hmeta], hP⟩
    · exact ⟨_, self, env', by simp only [hopen]; rfl, fun _ => h⟩

variable (ε fs) in
theorem OpenNamedFile.pollAction_pollable {self : OpenNamedFile} (h : self.Pollable)
    (w : World Bd Env) : ∃ (r : Poll (Error ε) (HList [NamedFile Io])) (self' : OpenNamedFile)
      (w' : World Bd Env), self.pollAction fs w = .ok (r, self', w') ∧
        (r = .ok .notReady → self'.Pollable) := by
  obtain ⟨r, self', env', hpoll, hP⟩ := poll_pollable fs h w.thread.env
  unfold OpenNamedFile.pollAction
  rcases r with e | (file | -)
  · exact ⟨_, self', _, by simp only [hpoll]; rfl, by rintro ⟨⟩⟩
  · exact ⟨_, self', _, by simp only [hpoll]; rfl, by rintro ⟨⟩⟩
  · exact ⟨_, self', _, by simp only [hpoll]; rfl, fun _ => hP rfl⟩

theorem safe_file (path : Str) :
    (FileAction.action fs : LeafAction ε Bd Env _ _).Safe (.new path)
      fun s => ∀ opening, s.opening = some opening → opening.Pollable where
  preflight cx _ := ⟨_, _, _, rfl, .refl cx.cursor, by rintro - opening ⟨⟩⟩
  poll s w hs := by
    have hopening : (s.opening.getD (NamedFile.open s.path)).Pollable := by
      cases h : s.opening with
      | none => exact OpenNamedFile.pollable_open s.path
      | some opening => exact hs opening h
    obtain ⟨r, opening, w', hpoll, hP⟩ := OpenNamedFile.pollAction_pollable ε fs hopening w
    refine ⟨r, { s with opening := some opening }, w', by simp only [FileAction.action, hpoll], ?_⟩
    rintro hr opening' ⟨⟩
    exact hP hr

theorem safe_dir (isDir : Str → Bool) (root : Str) :
    (DirAction.action fs isDir : LeafAction ε Bd Env _ _).Safe (.new root)
      fun s => ∃ f, s.state = .opening f ∧ f.Pollable where
  preflight cx hcx := by
    obtain ⟨b, n, c, hb, hn, hc, -⟩ := hcx.rest
    cases hpath : EncodedStr.percentDecode b with
    | error err =>
      refine ⟨.error (.badRequest (displayUtf8Error err)), .new root, c, ?_, hc, by rintro ⟨⟩⟩
      simp only [DirAction.action, DirAction.preflight, hb, hn, hpath, bind, Except.bind]
      rfl
    | ok path =>
      refine ⟨.ok .incomplete, ⟨root, .opening (NamedFile.open (if isDir (UnixPath.join root path)
        then UnixPath.join (UnixPath.join root path) "index.html".toList
        else UnixPath.join root path))⟩, c, ?_, hc, ?_⟩
      · simp only [DirAction.action, DirAction.preflight, hb, hn, hpath, bind, Except.bind]
        rfl
      · exact fun _ => ⟨_, rfl, OpenNamedFile.pollable_open _⟩
  poll := by
    rintro s w ⟨f, hstate, hf⟩
    obtain ⟨r, f', w', hpoll, hP⟩ := OpenNamedFile.pollAction_pollable ε fs hf w
    refine ⟨r, { s with state := .opening f' }, w', ?_, fun hr => ⟨f', rfl, hP hr⟩⟩
    simp only [DirAction.action, hstate, hpoll]

/-- `on_upgrade` is taken in the one poll of the action. -/
theorem safe_ws {F : Type} (x : Tungstenite.Digests)
    (spawn : Bd → F → Env → Except String Unit × Env) (onUpgrade : F) :
    (Tungstenite.WsAction (ε := ε) x spawn).Safe (some onUpgrade) fun s => s = some onUpgrade where
  preflight cx _ := ⟨_, _, _, rfl, .refl cx.cursor, fun _ => rfl⟩
  poll := by
    rintro s w rfl
    unfold Tungstenite.WsAction
    dsimp only
    cases hs : Tungstenite.handshake x w.cx.context.request with
    | error kind => exact ⟨_, _, _, rfl, by rintro ⟨⟩⟩
    | ok accept =>
      dsimp only
      rcases w with ⟨⟨context, _ | body⟩, thread⟩
      · exact ⟨_, _, _, rfl, by rintro ⟨⟩⟩
      · rcases hspawn : spawn body onUpgrade thread.env with ⟨msg | ⟨⟩, env⟩
        · exact ⟨_, _, _, by simp only [ActionContext.takeBody, hspawn]; rfl, by rintro ⟨⟩⟩
        · exact ⟨_, _, _, by simp only [ActionContext.takeBody, hspawn]; rfl, by rintro ⟨⟩⟩

end

/-! ## The library -/

/-- The endpoints of the library, and what its combinators make of them; closures, conversions and
futures are arbitrary. -/
inductive Library : {ts : List Type} → Endpoint ε BodyStream Env ts → Prop where
  | unit : Library (.oneshot Unit UnitAction ())
  | value {T : Type} (x : T) : Library (.oneshot T (ValueAction T) x)
  | verbs (allowed : Verbs) : Library (verbs allowed)
  | verb (method : Method) : Library (.oneshot Unit (MatchVerbAction method) ())
  | segment (s : Str) : Library (.oneshot MatchSegment MatchSegmentAction (segment s))
  | eos : Library (.oneshot Unit MatchEosAction ())
  | param (T : Type) [FromEncodedStr ε T] : Library (.oneshot Unit (ParamAction T) ())
  | remains (T : Type) [FromEncodedStr ε T] : Library (.oneshot Unit (RemainsAction T) ())
  | path (P : PathTypes ε) (cs : List (Component P.Ty)) : Library (path P cs)
  | headerParse (T : Type) [FromHeaderValue T] (name : HeaderName) :
      Library (.oneshot HeaderName (Header.ParseAction T) name)
  | headerOptional (T : Type) [FromHeaderValue T] (name : HeaderName) :
      Library (.oneshot HeaderName (Header.OptionalAction T) name)
  | headerMatches {V : Type} (eq : V → HeaderValue → Bool) (name : HeaderName) (v : V) :
      Library (.oneshot (HeaderName × V) (Header.MatchesAction eq) (name, v))
  | headerRaw (name : HeaderName) : Library (.oneshot HeaderName Header.RawAction name)
  | queryRequired {T : Type} (fromStr : Str → Except String T) :
      Library (.oneshot Unit (Query.RequiredAction fromStr) ())
  | queryOptional {T : Type} (fromStr : Str → Except String T) :
      Library (.oneshot Unit (Query.OptionalAction fromStr) ())
  | queryRaw : Library (.oneshot Unit Query.RawAction ())
  | bodyRaw : Library (.leaf Unit (RawAction BodyStream) ())
  | receiveAll : Library (.leaf ReceiveAllState ReceiveAllAction .start)
  | text {J Q : Type} (x : BodyReaders J Q) : Library (.leaf ReceiveAllState (TextAction x) .start)
  | json {J Q : Type} (x : BodyReaders J Q) : Library (.leaf ReceiveAllState (JsonAction x) .start)
  | urlencoded {J Q : Type} (x : BodyReaders J Q) :
      Library (.leaf ReceiveAllState (UrlencodedAction x) .start)
  | file {Io : Type} (fs : FileSystem Io Env) (path : Str) :
      Library (.leaf FileAction (FileAction.action fs) (.new path))
  | dir {Io : Type} (fs : FileSystem Io Env) (isDir : Str → Bool) (root : Str) :
      Library (.leaf DirAction (DirAction.action fs isDir) (.new root))
  | ws {F : Type} (x : Tungstenite.Digests)
      (spawn : BodyStream → F → Env → Except String Unit × Env) (onUpgrade : F) :
      Library (.leaf (Option F) (Tungstenite.WsAction x spawn) (some onUpgrade))
  | future {ts : List Type} (Fut : Type) (f : FutureAction ε Env Fut (HList ts)) (init : Fut) :
      Library (.future Fut f init)
  | and {ts us : List Type} {e1 : Endpoint ε BodyStream Env ts} {e2 : Endpoint ε BodyStream Env us} :
      Library e1 → Library e2 → Library (.and e1 e2)
  | or {T1 T2 : Type} {e1 : Endpoint ε BodyStream Env [T1]} {e2 : Endpoint ε BodyStream Env [T2]} :
      Library e1 → Library e2 → Library (.or e1 e2)
  | orStrict {ts : List Type} {e1 e2 : Endpoint ε BodyStream Env ts} :
      Library e1 → Library e2 → Library (.orStrict e1 e2)
  | map {ts : List Type} {U : Type} {e : Endpoint ε BodyStream Env ts} (f : HList ts → U) :
      Library e → Library (.map e f)
  | mapErr {ts : List Type} {e : Endpoint ε BodyStream Env ts} (f : Error ε → Error ε) :
      Library e → Library (.mapErr e f)
  | andThen {ts : List Type} {T : Type} (Fut : Type) {e : Endpoint ε BodyStream Env ts}
      (fut : FutureAction ε Env Fut T) (f : HList ts → Fut) :
      Library e → Library (.andThen Fut e fut f)
  | recover {T : Type} (Fut : Type) {e : Endpoint ε BodyStream Env [T]}
      (fut : FutureAction ε Env Fut T) (f : Error ε → Fut) :
      Library e → Library (.recover Fut e fut f)
  | boxed {ts : List Type} {e : Endpoint ε BodyStream Env ts} : Library e → Library (.boxed e)

theorem Library.leavesSafe {e : Endpoint ε BodyStream Env ts} (h : Library e) : e.LeavesSafe := by
  induction h with
  | unit => exact safe_offPath offPath_unit
  | value x => exact safe_offPath (offPath_value x)
  | verbs allowed => exact safe_offPath (offPath_verbs allowed)
  | verb method => exact safe_offPath (offPath_verb method)
  | segment s => exact safe_segment (Finchers.segment s)
  | eos => exact safe_eos
  | param T => exact safe_param
  | remains T => exact safe_remains
  | path P cs => exact safe_path P cs
  | headerParse T name => exact safe_offPath (offPath_headerParse name)
  | headerOptional T name => exact safe_offPath (offPath_headerOptional name)
  | headerMatches eq name v => exact safe_offPath (offPath_headerMatches eq name v)
  | headerRaw name => exact safe_offPath (offPath_headerRaw name)
  | queryRequired fromStr => exact safe_offPath (offPath_queryRequired fromStr)
  | queryOptional fromStr => exact safe_offPath (offPath_queryOptional fromStr)
  | queryRaw => exact safe_offPath offPath_queryRaw
  | bodyRaw => exact ⟨_, safe_raw BodyStream⟩
  | receiveAll => exact ⟨_, safe_body _ _ .start⟩
  | text x => exact ⟨_, safe_body _ _ .start⟩
  | json x => exact ⟨_, safe_body _ _ .start⟩
  | urlencoded x => exact ⟨_, safe_body _ _ .start⟩
  | file fs path => exact ⟨_, safe_file path⟩
  | dir fs isDir root => exact ⟨_, safe_dir isDir root⟩
  | ws x spawn onUpgrade => exact ⟨_, safe_ws x spawn onUpgrade⟩
  | future Fut f init => trivial
  | and h1 h2 ih1 ih2 => exact ⟨ih1, ih2⟩
  | or h1 h2 ih1 ih2 => exact ⟨ih1, ih2⟩
  | orStrict h1 h2 ih1 ih2 => exact ⟨ih1, ih2⟩
  | map f h ih => exact ih
  | mapErr f h ih => exact ih
  | andThen Fut fut f h ih => exact ih
  | recover Fut fut f h ih => exact ih
  | boxed h ih => exact ih

/-! ## Where the leaves leave the cursor -/

section

variable {Bd : Type}

theorem OneshotAction.OffPath.ignoresPath {a : OneshotAction ε σ ts} {init : σ}
    (h : a.OffPath init) : (Endpoint.oneshot σ a init : Endpoint ε Bd Env ts).IgnoresPath := by
  refine Endpoint.ignoresPath_oneshot fun cx r c hp => ?_
  obtain ⟨r', hr'⟩ := h cx
  rw [hp] at hr'
  cases hr'
  rfl

theorem readsPath_eos :
    (Endpoint.oneshot Unit MatchEosAction () : Endpoint ε Bd Env []).ReadsPath := by
  refine Endpoint.readsPath_oneshot fun cx r c h => ?_
  rcases hn : Cursor.nextSegment cx.path cx.cursor with p | ⟨_ | raw, c'⟩
  · simp [MatchEosAction, hn, bind, Except.bind] at h
  · simp only [MatchEosAction, hn, bind, Except.bind] at h
    cases h
    exact Cursor.reads_nextSegment hn
  · simp only [MatchEosAction, hn, bind, Except.bind] at h
    cases h
    exact Cursor.reads_nextSegment hn

theorem readsPath_param (T : Type) [FromEncodedStr ε T] :
    (Endpoint.oneshot Unit (ParamAction T) () : Endpoint ε Bd Env [T]).ReadsPath := by
  refine Endpoint.readsPath_oneshot fun cx r c h => ?_
  rcases hn : Cursor.nextSegment cx.path cx.cursor with p | ⟨_ | raw, c'⟩
  · simp [ParamAction, hn, bind, Except.bind] at h
  · simp only [ParamAction, hn, bind, Except.bind] at h
    cases h
    exact Cursor.reads_nextSegment hn
  · rw [ParamAction.preflight_eq T hn] at h
    cases h
    exact Cursor.reads_nextSegment hn

theorem readsPath_remains (T : Type) [FromEncodedStr ε T] :
    (Endpoint.oneshot Unit (RemainsAction T) () : Endpoint ε Bd Env [T]).ReadsPath := by
  refine Endpoint.readsPath_oneshot fun cx r c h => ?_
  simp only [RemainsAction, bind, Except.bind] at h
  rcases hr : Cursor.remainingPath cx.path cx.cursor with p | remaining
  · simp [hr] at h
  · simp only [hr] at h
    rcases hc : Cursor.count cx.path cx.cursor with p | ⟨n, c'⟩
    · simp only [hc] at h
      cases h
    · simp only [hc] at h
      cases h
      exact Cursor.reads_count hc

theorem readsPath_dir {Io : Type} (fs : FileSystem Io Env) (isDir : Str → Bool) (root : Str) :
    (Endpoint.leaf DirAction (DirAction.action fs isDir) (.new root) :
      Endpoint ε Bd Env [NamedFile Io]).ReadsPath := by
  intro cx l r s c hp
  have h : DirAction.preflight isDir cx (.new root) = .ok (r, s, c) := LeafAction.preflight_inv hp
  simp only [DirAction.preflight, bind, Except.bind] at h
  rcases hr : Cursor.remainingPath cx.path cx.cursor with p | remaining
  · simp [hr] at h
  · simp only [hr] at h
    rcases hc : Cursor.count cx.path cx.cursor with p | ⟨n, c'⟩
    · simp only [hc] at h
      cases h
    · simp only [hc] at h
      cases hd : EncodedStr.percentDecode remaining with
      | error err =>
        simp only [hd] at h
        cases h
        exact Cursor.reads_count hc
      | ok path =>
        simp only [hd] at h
        cases h
        exact Cursor.reads_count hc

theorem Component.step_reads {P : PathTypes ε} {accepts : Str → Str → Bool} {comp : Component P.Ty}
    {cx : PreflightContext} {x : Option (HList comp.outputs)} {c : CursorInner}
    (h : comp.step accepts cx = .ok (x, c)) : Cursor.Reads cx.path cx.cursor c := by
  cases comp with
  | static t =>
    rcases hn : Cursor.nextSegment cx.path cx.cursor with p | ⟨s, c'⟩
    · rw [Component.step, hn] at h
      cases h
    · rw [Component.step, hn] at h
      cases h
      exact Cursor.reads_nextSegment hn
  | singleParam ty =>
    rcases hn : Cursor.nextSegment cx.path cx.cursor with p | ⟨s, c'⟩
    · rw [Component.step, hn] at h
      cases h
    · rw [Component.step, hn] at h
      cases h
      exact Cursor.reads_nextSegment hn
  | catchAllParam ty =>
    rcases hr : Cursor.remainingPath cx.path cx.cursor with p | remaining
    · rw [Component.step, hr] at h
      cases h
    · rcases hn : Cursor.count cx.path cx.cursor with p | ⟨n, c'⟩
      · rw [Component.step, hr, hn] at h
        cases h
      · rw [Component.step, hr, hn] at h
        cases h
        exact Cursor.reads_count hn

theorem walk_reaches {P : PathTypes ε} {accepts : Str → Str → Bool} (cs : List (Component P.Ty))
    {ts : List Type} (xs : HList ts) {cx : PreflightContext}
    {x : Option (HList (Component.outputTypes ts cs))} {c : CursorInner}
    (h : walk accepts xs cs cx = .ok (x, c)) : Cursor.Reaches cx.path cx.cursor c := by
  induction cs generalizing ts cx with
  | nil =>
    cases h
    exact .refl _ _
  | cons comp cs ih =>
    rw [walk] at h
    rcases hstep : comp.step accepts cx with p | ⟨_ | y, c'⟩
    · rw [hstep] at h
      cases h
    · rw [hstep] at h
      cases h
      exact (Component.step_reads hstep).reaches
    · rw [hstep] at h
      have hrest : Cursor.Reaches cx.path c' c := ih (xs.combine y) h
      exact (Component.step_reads hstep).reaches.trans hrest

/-- The first component reads the path, and the others go on from there. -/
theorem walk_reads {P : PathTypes ε} {accepts : Str → Str → Bool} (comp : Component P.Ty)
    (cs : List (Component P.Ty)) {ts : List Type} (xs : HList ts) {cx : PreflightContext}
    {x : Option (HList (Component.outputTypes ts (comp :: cs)))} {c : CursorInner}
    (h : walk accepts xs (comp :: cs) cx = .ok (x, c)) : Cursor.Reads cx.path cx.cursor c := by
  rw [walk] at h
  rcases hstep : comp.step accepts cx with p | ⟨_ | y, c'⟩
  · rw [hstep] at h
    cases h
  · rw [hstep] at h
    cases h
    exact Component.step_reads hstep
  · rw [hstep] at h
    have hrest : Cursor.Reaches cx.path c' c := walk_reaches cs (xs.combine y) h
    exact (Component.step_reads hstep).trans hrest

/-- `preflight` of `path!` ends where the walk over its components does. -/
theorem path_preflight_inv {P : PathTypes ε} {cs : List (Component P.Ty)} {cx : PreflightContext}
    {r : Except (Error ε) (HList (Component.outputTypes [] cs))} {c : CursorInner}
    (h : (PathAction P cs).preflight () cx = .ok (r, c)) :
    ∃ x, walk acceptsRaw HList.nil cs cx = .ok (x, c) := by
  have hwalk := extractFrom_eq_walk (T := P) HList.nil cs cx
  have hextract : extractFrom P HList.nil cs cx = .ok (r, c) := h
  rw [hextract] at hwalk
  exact ⟨_, hwalk.symm⟩

theorem plain_path (P : PathTypes ε) (cs : List (Component P.Ty)) :
    (path P cs : Endpoint ε Bd Env _).PlainLeaves := by
  cases cs with
  | nil =>
    refine Or.inl (Endpoint.ignoresPath_oneshot fun cx r c h => ?_)
    obtain ⟨x, hwalk⟩ := path_preflight_inv h
    cases hwalk
    rfl
  | cons comp cs =>
    refine Or.inr (Endpoint.readsPath_oneshot fun cx r c h => ?_)
    obtain ⟨x, hwalk⟩ := path_preflight_inv h
    exact walk_reads comp cs HList.nil hwalk

end

/-- **Each leaf of the library reads the path or ignores it.** -/
theorem Library.plainLeaves {e : Endpoint ε BodyStream Env ts} (h : Library e) :
    e.PlainLeaves := by
  induction h with
  | unit => exact Or.inl offPath_unit.ignoresPath
  | value x => exact Or.inl (offPath_value x).ignoresPath
  | verbs allowed => exact Or.inl (offPath_verbs allowed).ignoresPath
  | verb method => exact Or.inl (offPath_verb method).ignoresPath
  | segment s => exact Or.inr (Endpoint.readsPath_segment (Finchers.segment s))
  | eos => exact Or.inr readsPath_eos
  | param T => exact Or.inr (readsPath_param T)
  | remains T => exact Or.inr (readsPath_remains T)
  | path P cs => exact plain_path P cs
  | headerParse T name => exact Or.inl (offPath_headerParse name).ignoresPath
  | headerOptional T name => exact Or.inl (offPath_headerOptional name).ignoresPath
  | headerMatches eq name v => exact Or.inl (offPath_headerMatches eq name v).ignoresPath
  | headerRaw name => exact Or.inl (offPath_headerRaw name).ignoresPath
  | queryRequired fromStr => exact Or.inl (offPath_queryRequired fromStr).ignoresPath
  | queryOptional fromStr => exact Or.inl (offPath_queryOptional fromStr).ignoresPath
  | queryRaw => exact Or.inl offPath_queryRaw.ignoresPath
  | bodyRaw | receiveAll | text x | json x | urlencoded x | file fs path | ws x spawn onUpgrade =>
    refine Or.inl (Endpoint.ignoresPath_leaf fun cx r s c hp => ?_)
    cases hp
    rfl
  | dir fs isDir root => exact Or.inr (readsPath_dir fs isDir root)
  | future Fut f init => trivial
  | and h1 h2 ih1 ih2 => exact ⟨ih1, ih2⟩
  | or h1 h2 ih1 ih2 => exact ⟨ih1, ih2⟩
  | orStrict h1 h2 ih1 ih2 => exact ⟨ih1, ih2⟩
  | map f h ih => exact ih
  | mapErr f h ih => exact ih
  | andThen Fut fut f h ih => exact ih
  | recover Fut fut f h ih => exact ih
  | boxed h ih => exact ih

/-! ## Panics -/

/-- Without a path, `eos` panics. -/
theorem eos_panics {request : Request} (h : request.uri.isAuthorityForm = true) (addr : Nat)
    (body : BodyStream) (th : Thread Env) :
    (AppFuture.drive (Endpoint.oneshot Unit (MatchEosAction (ε := ε)) () :
        Endpoint ε BodyStream Env []).impl [id]
      (.dispatch (.oneshot Unit MatchEosAction ()) addr request body) th).res =
        .error (.action .slice) := by
  have hnil : request.uri.path = [] := request.uri.path_eq_nil_iff.mpr h
  have hnext : Cursor.nextSegment request.uri.path ⟨1, 0⟩ = .error .slice := by
    rw [hnil]
    rfl
  have hpre : (MatchEosAction (ε := ε)).preflight () (.new (.new addr request)) =
      .error .slice := by
    simp only [MatchEosAction, PreflightContext.new, PreflightContext.path, Context.new, hnext]
    rfl
  have hpanics : (MatchEosAction.action : EndpointAction ε BodyStream Env (Option Unit) []).preflight
      (.new (.new addr request)) (some ()) =
        ⟨[⟨[], .preflight ⟨1, 0⟩ .panicked⟩], .error (.action .slice)⟩ := by
    simp only [OneshotAction.action, hpre]
    rfl
  rw [AppFuture.dispatch]
  exact congrArg Traced.res (AppFuture.drive_panics hpanics (some body) id [] th)

/-- **Which requests no endpoint of the library panics on:** those whose target is not in authority
form, which has no path.  For these a run never panics, however the endpoint is built and polled;
for a target in authority form there are endpoints that do. -/
theorem library_never_panics_iff (request : Request) (th : Thread Env) :
    (∀ (ts : List Type) (e : Endpoint ε BodyStream Env ts), Library e →
      ∀ addr body gs p, (AppFuture.drive e.impl gs (.dispatch e addr request body) th).res ≠
        .error p) ↔ request.uri.isAuthorityForm = false := by
  constructor
  · intro h
    by_contra hform
    rw [Bool.not_eq_false] at hform
    exact h [] _ Library.eos 0 [] [id] _ (eos_panics hform 0 [] th)
  · intro hform ts e he addr body gs p hp
    obtain ⟨l, a, hrun⟩ := drive_safe he.leavesSafe addr hform body gs th
    rw [hrun] at hp
    cases hp

end Finchers
