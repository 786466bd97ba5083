import Finchers.Endpoints.Body

/-!
# What of a body is received

`receive_all` appends of each buffer the piece that `bytes` shows, and drops the rest.

* `BodyStream.items`, `BodyStream.failure` — what a stream sends, and how it fails;
* `returns_received` — by induction on the answers: an action reads what has been shown, wherever the
  stream was not ready, and fails if the stream fails;
* `receiveAll_whole_iff` — **the whole body is received iff the stream fails or each of its buffers
  is in one piece**.
-/

set_option autoImplicit false

namespace Finchers

open Resumable

variable {ε Env T : Type}

/-! ## What a stream sends -/

namespace BodyStream

/-- The buffers that are sent, up to the end or the first error. -/
def items : BodyStream → List Buf
  | [] => []
  | .item data :: body => data :: items body
  | .notReady :: body => items body
  | .error _ :: _ => []

/-- The error that the stream fails with. -/
def failure : BodyStream → Option String
  | [] => none
  | .item _ :: body => failure body
  | .notReady :: body => failure body
  | .error msg :: _ => some msg

/-- The bytes of all buffers. -/
def contents (body : BodyStream) : List UInt8 := body.items.flatMap Buf.contents

/-- The bytes that the buffers show. -/
def shown (body : BodyStream) : List UInt8 := body.items.flatMap Buf.bytes

/-- What comes of a stream if `data` has been received when it ends. -/
def outcome (body : BodyStream) (data : List UInt8) (read : List UInt8 → Except (Error ε) T) :
    Except (Error ε) (HList [T]) :=
  match body.failure with
  | some msg => .error (.internalServerError msg)
  | none => (read data).map HList.single

end BodyStream

/-! ## Buffers -/

theorem Buf.contiguous_iff (d : Buf) : d.Contiguous ↔ d.bytes = d.contents := by
  unfold Contiguous contents
  constructor
  · intro h
    rw [List.length_append] at h
    have hrest : d.rest = [] := by
      apply List.eq_nil_of_length_eq_zero
      omega
    rw [hrest, List.append_nil]
  · intro h
    exact congrArg List.length h

theorem Buf.length_bytes_le (d : Buf) : d.bytes.length ≤ d.contents.length := by
  rw [contents, List.length_append]
  omega

/-- What is shown is everything only if each buffer shows everything. -/
theorem flatMap_bytes_eq_iff (ds : List Buf) :
    ds.flatMap Buf.bytes = ds.flatMap Buf.contents ↔ ∀ d ∈ ds, d.Contiguous := by
  induction ds with
  | nil => simp
  | cons d ds ih =>
    rw [List.flatMap_cons, List.flatMap_cons, List.forall_mem_cons, ← ih]
    constructor
    · intro h
      have hle : ∀ ds : List Buf,
          (ds.flatMap Buf.bytes).length ≤ (ds.flatMap Buf.contents).length := by
        intro ds
        induction ds with
        | nil => simp
        | cons d ds ih =>
          have hd := d.length_bytes_le
          simp only [List.flatMap_cons, List.length_append]
          omega
      have hlen := congrArg List.length h
      have htail := hle ds
      have hd := d.length_bytes_le
      simp only [List.length_append] at hlen
      have hcont : d.Contiguous := by
        unfold Buf.Contiguous
        omega
      rw [d.contiguous_iff.mp hcont] at h
      exact ⟨hcont, List.append_cancel_left h⟩
    · rintro ⟨hd, htail⟩
      rw [d.contiguous_iff.mp hd, htail]

/-! ## Polling an action -/

/-- The action comes to `r`, polled from its start as often as it takes. -/
def Returns (tick : World BodyStream Env → World BodyStream Env) (w : World BodyStream Env)
    (a : LeafAction ε BodyStream Env ReceiveAllState [T]) (r : Except (Error ε) (HList [T])) :
    Prop :=
  ∃ l s w', Completes tick a.action.pollAction .start w l r s w'

section

variable {tick : World BodyStream Env → World BodyStream Env} {w : World BodyStream Env}
  {check : Request → Except (Error ε) Unit} {read : List UInt8 → Except (Error ε) T}

/-- An action comes to one result. -/
theorem Returns.det {a : LeafAction ε BodyStream Env ReceiveAllState [T]}
    {r r' : Except (Error ε) (HList [T])} (h : Returns tick w a r) (h' : Returns tick w a r') :
    r = r' := by
  obtain ⟨l, s, w₁, hc⟩ := h
  obtain ⟨l', s', w₂, hc'⟩ := h'
  exact (Finishes.det hc hc').2.1

/-- A result that was read in the last poll. -/
theorem finishes_ofResult {l : List Event} {r : Except (Error ε) (HList [T])}
    {s : ReceiveAllState} {poll : PollFn Panic Event (Error ε) ReceiveAllState
      (World BodyStream Env) (HList [T])} :
    Finishes tick poll ⟨l, .ok (.ofResult r, s, w)⟩ l r s w := by
  cases r with
  | error err => exact .err
  | ok x => exact .ready

variable (tick check read) in
/-- From the middle of a body: `buf` has been received, `body` is to come. -/
theorem completes_receiving (body : BodyStream) (buf : List UInt8) (w : World BodyStream Env) :
    ∃ l s w', Completes tick (bodyAction check read).action.pollAction (.receiving body buf) w l
      (body.outcome (buf ++ body.shown) read) s w' := by
  induction body generalizing buf w with
  | nil =>
    rw [show BodyStream.shown [] = [] from rfl, List.append_nil]
    exact ⟨_, .receiving [] [], w, finishes_ofResult⟩
  | cons answer body ih =>
    cases answer with
    | item data =>
      -- the next answer is asked for in the same poll
      obtain ⟨l, s, w', h⟩ := ih (buf ++ data.bytes) w
      have hshown : BodyStream.shown (.item data :: body) = data.bytes ++ BodyStream.shown body := rfl
      rw [hshown, ← List.append_assoc]
      exact ⟨l, s, w', h⟩
    | notReady =>
      obtain ⟨l, s, w', h⟩ := ih buf (tick w)
      exact ⟨_, s, w', .notReady h⟩
    | error msg => exact ⟨_, _, _, .err⟩

/-- What was recorded in the first poll does not matter for the result. -/
theorem finishes_relog {poll : PollFn Panic Event (Error ε) ReceiveAllState
      (World BodyStream Env) (HList [T])} {t t' : Traced Panic Event
      (Poll (Error ε) (HList [T]) × ReceiveAllState × World BodyStream Env)}
    {l : List Event} {r : Except (Error ε) (HList [T])} {s : ReceiveAllState}
    {w' : World BodyStream Env} (h : Finishes tick poll t l r s w') (hres : t'.res = t.res) :
    ∃ l', Finishes tick poll t' l' r s w' := by
  obtain ⟨l₀, res⟩ := t'
  cases hres
  cases h with
  | ready => exact ⟨_, .ready⟩
  | err => exact ⟨_, .err⟩
  | notReady h => exact ⟨_, .notReady h⟩

/-- **What an action of a body comes to**, wherever the stream is not ready. -/
theorem returns_received {body : BodyStream} (hbody : w.cx.body = some body) :
    Returns tick w (bodyAction check read) (body.outcome body.shown read) := by
  obtain ⟨l, s, w', h⟩ := completes_receiving tick check read body []
    { w with cx := { w.cx with body := none } }
  have hstart : ((bodyAction check read).action.pollAction .start w).res =
      ((bodyAction check read).action.pollAction (.receiving body [])
        { w with cx := { w.cx with body := none } }).res := by
    rcases w with ⟨⟨context, _⟩, thread⟩
    cases hbody
    rfl
  obtain ⟨l', h'⟩ := finishes_relog h hstart
  exact ⟨l', s, w', h'⟩

/-- An action finds the body taken by someone else. -/
theorem returns_stolen (hbody : w.cx.body = none) :
    Returns tick w (bodyAction check read)
      (.error (.internalServerError "the request body has already been stolen by someone")) := by
  rcases w with ⟨⟨context, _⟩, thread⟩
  cases hbody
  exact ⟨_, .start, _, Finishes.err⟩

end

/-! ## The whole body -/

section

variable {J Q : Type}

/-- Whatever the stream, `receive_all` returns all its bytes, and the other actions what they read of
all its bytes; if it fails, they fail with its error. -/
structure ReceivesWhole (x : BodyReaders J Q) (ε : Type)
    (tick : World BodyStream Env → World BodyStream Env) (w : World BodyStream Env)
    (body : BodyStream) : Prop where
  receiveAll : Returns (ε := ε) tick w ReceiveAllAction (body.outcome body.contents .ok)
  text : Returns (ε := ε) tick w (TextAction x) (body.outcome body.contents fun data =>
    (Utf8.decode data).mapError fun err => .badRequest (displayUtf8Error err))
  json : Returns (ε := ε) tick w (JsonAction x) (body.outcome body.contents fun data =>
    (x.fromJsonSlice data).mapError .badRequest)
  urlencoded : Returns (ε := ε) tick w (UrlencodedAction x) (body.outcome body.contents fun data =>
    ((Utf8.decode data).mapError fun err => .badRequest (displayUtf8Error err)).bind fun s =>
      (x.fromQueryStr s).mapError .badRequest)

/-- The outcome is the same if the stream fails or everything is shown. -/
theorem outcome_shown {body : BodyStream} (read : List UInt8 → Except (Error ε) T)
    (h : body.failure = none → ∀ d ∈ body.items, d.Contiguous) :
    body.outcome body.shown read = body.outcome body.contents read := by
  unfold BodyStream.outcome
  cases hfail : body.failure with
  | some msg => rfl
  | none =>
    have heq : body.shown = body.contents := (flatMap_bytes_eq_iff _).mpr (h hfail)
    dsimp only
    rw [heq]

/-- **When the whole body is received.**  Whatever happens between the polls and wherever the stream
is not ready, `receive_all`, `text`, `json` and `urlencoded` work on all bytes of the body, iff the
stream fails or each of its buffers shows all its bytes in one piece. -/
theorem receiveAll_whole_iff (x : BodyReaders J Q)
    (tick : World BodyStream Env → World BodyStream Env) (w : World BodyStream Env)
    (body : BodyStream) (hbody : w.cx.body = some body) :
    ReceivesWhole x ε tick w body ↔
      (body.failure = none → ∀ d ∈ body.items, d.Contiguous) := by
  constructor
  · intro h hfail
    apply (flatMap_bytes_eq_iff _).mp
    have heq := (returns_received hbody).det h.receiveAll
    unfold BodyStream.outcome at heq
    rw [hfail] at heq
    have hdata : body.shown = body.contents := congrArg HList.head (Except.ok.inj heq)
    exact hdata
  · intro h
    constructor
    · rw [← outcome_shown _ h]
      exact returns_received hbody
    · rw [← outcome_shown _ h]
      exact returns_received hbody
    · rw [← outcome_shown _ h]
      exact returns_received hbody
    · rw [← outcome_shown _ h]
      exact returns_received hbody

/-! ## A buffer in two pieces -/

/-- Readers that read nothing. -/
def noReaders : BodyReaders Empty Empty where
  toStr _ := .error "failed to convert header to a str"
  Mime := Empty
  parseMime _ := .error "parse error"
  paramEq m := m.elim
  isJson m := m.elim
  isForm m := m.elim
  fromJsonSlice _ := .error "expected value"
  fromQueryStr _ := .error "missing field"

/-- A `POST` request with a body. -/
def posted (body : BodyStream) : World BodyStream Unit :=
  ⟨⟨.new 0 ⟨.post, .origin ⟨['/'], none, slash_rooted⟩, []⟩, some body⟩, ⟨none, ()⟩⟩

/-- The two bytes `ab`, in one piece. -/
def onePiece : Buf := ⟨[97, 98], [], fun _ => rfl⟩

/-- The two bytes `ab`, in two pieces. -/
def twoPieces : Buf := ⟨[97], [98], by simp⟩

/-- Two polls of a body in one piece. -/
theorem receiveAll_whole_one_piece :
    ReceivesWhole noReaders Empty id (posted [.notReady, .item onePiece])
      [.notReady, .item onePiece] := by
  refine (receiveAll_whole_iff noReaders id _ _ rfl).mpr fun _ d hd => ?_
  rw [List.mem_singleton.mp hd]
  rfl

/-- Of a buffer in two pieces the second is dropped. -/
theorem receiveAll_drops :
    ¬ ReceivesWhole noReaders Empty id (posted [.item twoPieces]) [.item twoPieces] := by
  intro h
  have heq := (returns_received rfl).det h.receiveAll
  have hdata : ([97] : List UInt8) = [97, 98] := congrArg HList.head (Except.ok.inj heq)
  cases hdata

end

end Finchers
