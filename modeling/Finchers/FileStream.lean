import Mathlib.Algebra.GroupWithZero.Nat
import Finchers.Output.Fs

/-!
# How much of a file is served

`FileStream::poll_buf` sets the remaining length to the size of the chunk it has just read instead
of subtracting that size, so the stream ends after the first read that is larger than the one
before it, and does not end at the announced length otherwise.

* `readSizes` — the sizes of the reads that a file of some length answers;
* `descent` — the sizes up to the first one that is followed by a larger one;
* `Stops` — where a stream stops, by the sizes of its reads; `drain_stops` by induction on the polls;
* `fileStream_body_iff` — **the body is the announced part of the file iff the sizes of the reads
  happen to lead there**.
-/

set_option autoImplicit false

namespace Finchers

variable {Io : Type}

/-- Whether a read is answered with bytes. -/
def Read.isUpTo : Read Io → Bool
  | .upTo _ => true
  | _ => false

/-- The sizes of the reads of a file with `n` bytes, up to its end or an error. -/
def readSizes : Nat → List (Read Io) → List Nat
  | _, [] => []
  | n, .notReady :: reads => readSizes n reads
  | _, .error _ :: _ => []
  | 0, .upTo _ :: _ => []
  | n + 1, .upTo k :: reads => min (k + 1) (n + 1) :: readSizes (n + 1 - (k + 1)) reads

/-- The sizes up to the first one that is followed by a larger one. -/
def descent : List Nat → List Nat
  | [] => []
  | [n] => [n]
  | n :: m :: sizes => if m ≤ n then n :: descent (m :: sizes) else [n]

/-- A stream with announced length `len`, over a file of `size` bytes read in pieces of the given
sizes, ends where it should: at once, in the first read, at the end of the file, or because the
last size before the first larger one is just what is missing then. -/
def EndsRight (len size : Nat) (sizes : List Nat) : Prop :=
  len = 0 ∨ (∃ n ∈ sizes.head?, len < n) ∨ (descent sizes = sizes ∧ size ≤ len) ∨
    (descent sizes ≠ sizes ∧ (descent sizes).sum + (descent sizes).getLastD 0 = len)

/-- With `len` bytes remaining, `size` bytes in the file and reads of the given sizes to come, the
stream ends after `t` bytes. -/
inductive Stops : Nat → Nat → List Nat → Nat → Prop where
  | atLength {size : Nat} {sizes : List Nat} : Stops 0 size sizes 0
  | atEnd {len : Nat} : Stops len 0 [] 0
  | cut {len size n : Nat} {sizes : List Nat} : 0 < len → len < n → n ≤ size →
      Stops len size (n :: sizes) len
  | step {len size n t : Nat} {sizes : List Nat} : 0 < n → n ≤ len → n ≤ size →
      Stops n (size - n) sizes t → Stops len size (n :: sizes) (n + t)

theorem Stops.eq_zero {size t : Nat} {sizes : List Nat} (h : Stops 0 size sizes t) : t = 0 := by
  cases h with
  | atLength => rfl
  | atEnd => rfl
  | cut hlen => omega
  | step hpos hle => omega

theorem descent_cons (n : Nat) (sizes : List Nat) : ∃ d, descent (n :: sizes) = n :: d := by
  cases sizes with
  | nil => exact ⟨[], rfl⟩
  | cons m sizes =>
    unfold descent
    split
    · exact ⟨_, rfl⟩
    · exact ⟨[], rfl⟩

/-- After a chunk of `p` bytes the stream ends with the file if no coming read is larger than the
one before it, and otherwise early, at the first one that is. -/
theorem Stops.after_chunk {p size t : Nat} {sizes : List Nat} (h : Stops p size sizes t)
    (hp : 0 < p) :
    (descent (p :: sizes) = p :: sizes ∧ t = size) ∨
      (descent (p :: sizes) ≠ p :: sizes ∧ t < size ∧
        t + p = (descent (p :: sizes)).sum + (descent (p :: sizes)).getLastD 0) := by
  induction h with
  | atLength => omega
  | atEnd => exact Or.inl ⟨rfl, rfl⟩
  | @cut p size n sizes _ hlt hle =>
    have hd : descent (p :: n :: sizes) = [p] := by
      rw [descent, if_neg (by omega)]
    rw [hd]
    exact Or.inr ⟨by simp, by omega, rfl⟩
  | @step p size n t sizes hn hnp hle _ ih =>
    have hd : descent (p :: n :: sizes) = p :: descent (n :: sizes) := by
      rw [descent, if_pos hnp]
    rw [hd]
    rcases ih hn with ⟨heq, ht⟩ | ⟨hne, hlt, hsum⟩
    · exact Or.inl ⟨by rw [heq], by omega⟩
    · refine Or.inr ⟨fun he => hne (List.cons.inj he).2, by omega, ?_⟩
      obtain ⟨d, hd'⟩ := descent_cons n sizes
      rw [hd'] at hsum ⊢
      simp only [List.sum_cons, List.getLastD_cons] at hsum ⊢
      omega

/-- Where a stream stops is the announced length or the end of the file, whichever is first, iff
the sizes of its reads lead there. -/
theorem Stops.eq_min_iff {len size t : Nat} {sizes : List Nat} (h : Stops len size sizes t) :
    t = min len size ↔ EndsRight len size sizes := by
  unfold EndsRight
  cases h with
  | atLength => simp
  | atEnd => simp [descent]
  | @cut _ _ n sizes hlen hlt hle =>
    refine ⟨fun _ => Or.inr (Or.inl ⟨n, rfl, hlt⟩), fun _ => by omega⟩
  | @step _ _ n t sizes hn hle hsize hrest =>
    have hfirst : ¬ ∃ m ∈ (n :: sizes).head?, len < m := by
      intro hm
      obtain ⟨m, hm, hlt⟩ := hm
      cases hm
      omega
    rcases hrest.after_chunk hn with ⟨heq, ht⟩ | ⟨hne, hlt, hsum⟩
    · refine ⟨fun hmin => Or.inr (Or.inr (Or.inl ⟨heq, by omega⟩)), fun hr => ?_⟩
      rcases hr with h0 | hm | ⟨-, hle'⟩ | ⟨hne, -⟩
      · omega
      · exact absurd hm hfirst
      · omega
      · exact absurd heq hne
    · refine ⟨fun hmin => Or.inr (Or.inr (Or.inr ⟨hne, by omega⟩)), fun hr => ?_⟩
      rcases hr with h0 | hm | ⟨heq, -⟩ | ⟨-, hlen⟩
      · omega
      · exact absurd hm hfirst
      · exact absurd heq hne
      · omega

theorem Stops.le_size {len size t : Nat} {sizes : List Nat} (h : Stops len size sizes t) :
    t ≤ size := by
  induction h with
  | atLength => omega
  | atEnd => omega
  | cut => omega
  | step => omega

/-- A result that begins with the chunk just read. -/
theorem map_cons_eq_some {α : Type} {x : α} {o : Option (Except Io (List α))} {xs : List α}
    (h : o.map (fun r => r.map (fun rest => x :: rest)) = some (.ok xs)) :
    ∃ rest, o = some (.ok rest) ∧ xs = x :: rest := by
  obtain ⟨r, rfl, hr⟩ := Option.map_eq_some_iff.mp h
  rcases r with e | rest
  · cases hr
  · cases hr
    exact ⟨rest, rfl, rfl⟩

namespace FileStream

/-- A read that is larger than the remaining length: the chunk is cut, and nothing remains. -/
theorem pollBuf_cut {u : List UInt8} {reads : List (Read Io)} {len k : Nat} (hlen : 0 < len)
    (hcut : len < min (k + 1) u.length) :
    pollBuf ⟨⟨u, .upTo k :: reads⟩, [], len⟩ =
      (.ok (.ready (some (u.take len))), ⟨⟨u.drop (k + 1), reads⟩, [], 0⟩) := by
  unfold pollBuf File.readBuf
  simp only [List.nil_append, List.length_take]
  rw [if_neg (by omega), if_neg (by omega), if_pos hcut, List.take_take, Nat.min_eq_left (by omega)]

/-- A read that is not: the chunk is all of it, and its size is what remains. -/
theorem pollBuf_step {u : List UInt8} {reads : List (Read Io)} {len k n : Nat} (hpos : 0 < n)
    (hn : n = min (k + 1) u.length) (hle : n ≤ len) :
    pollBuf ⟨⟨u, .upTo k :: reads⟩, [], len⟩ =
      (.ok (.ready (some (u.take n))), ⟨⟨u.drop n, reads⟩, [], n⟩) := by
  have htake : u.take (k + 1) = u.take n := by
    rcases Nat.le_total (k + 1) u.length with h | h
    · rw [hn, Nat.min_eq_left h]
    · rw [hn, Nat.min_eq_right h, List.take_length, List.take_of_length_le h]
  have hdrop : u.drop (k + 1) = u.drop n := by
    rcases Nat.le_total (k + 1) u.length with h | h
    · rw [hn, Nat.min_eq_left h]
    · rw [hn, Nat.min_eq_right h, List.drop_length, List.drop_of_length_le h]
  have hlen : (u.take n).length = n := by
    rw [List.length_take]
    omega
  unfold pollBuf File.readBuf
  simp only [List.nil_append, htake, hdrop, hlen]
  rw [if_neg (by omega), if_neg (by omega), if_neg (by omega)]

/-- A stream that ends has yielded a prefix of the file, up to where it stops. -/
theorem drain_stops (n : Nat) {u : List UInt8} {reads : List (Read Io)} {len : Nat}
    {chunks : List (List UInt8)} (h : drain n ⟨⟨u, reads⟩, [], len⟩ = some (.ok chunks)) :
    ∃ t, Stops len u.length (readSizes u.length reads) t ∧ chunks.flatten = u.take t := by
  induction n generalizing u reads len chunks with
  | zero => cases h
  | succ n ih =>
    rcases Nat.eq_zero_or_pos len with rfl | hlen
    · cases h
      exact ⟨0, .atLength, rfl⟩
    have hne : len ≠ 0 := by omega
    rcases reads with - | ⟨- | e | k, reads⟩
    · simp only [drain, pollBuf, if_neg hne, File.readBuf] at h
      exact ih h
    · simp only [drain, pollBuf, if_neg hne, File.readBuf] at h
      obtain ⟨t, ht, hflat⟩ := ih h
      refine ⟨t, ?_, hflat⟩
      rw [readSizes]
      exact ht
    · simp only [drain, pollBuf, if_neg hne, File.readBuf] at h
      cases h
    · rcases u with - | ⟨b, u⟩
      · simp only [drain, pollBuf, if_neg hne, File.readBuf] at h
        cases h
        exact ⟨0, .atEnd, rfl⟩
      have hsizes : readSizes (b :: u).length (.upTo k :: reads) =
          min (k + 1) (b :: u).length :: readSizes ((b :: u).length - (k + 1)) reads := rfl
      have hpos : 0 < min (k + 1) (b :: u).length := by
        rw [List.length_cons]
        omega
      rw [hsizes]
      generalize b :: u = u at *
      by_cases hcut : len < min (k + 1) u.length
      · rw [drain, pollBuf_cut hlen hcut] at h
        obtain ⟨rest, hrest, rfl⟩ := map_cons_eq_some h
        obtain ⟨t, ht, hflat⟩ := ih hrest
        obtain rfl := ht.eq_zero
        refine ⟨len, .cut hlen hcut (Nat.min_le_right _ _), ?_⟩
        rw [List.flatten_cons, hflat, List.take_zero, List.append_nil]
      · rw [drain, pollBuf_step hpos rfl (by omega)] at h
        obtain ⟨rest, hrest, rfl⟩ := map_cons_eq_some h
        obtain ⟨t, ht, hflat⟩ := ih hrest
        rw [List.length_drop] at ht
        have hsub : u.length - min (k + 1) u.length = u.length - (k + 1) := by omega
        refine ⟨min (k + 1) u.length + t,
          .step hpos (by omega) (Nat.min_le_right _ _) ?_, ?_⟩
        · rw [hsub] at ht ⊢
          exact ht
        · rw [List.flatten_cons, hflat, List.take_add]

/-- A stream whose file answers often enough, and without an error, ends. -/
theorem drain_ends (u : List UInt8) {reads : List (Read Io)} (len : Nat)
    (herr : ∀ e, Read.error e ∉ reads)
    (hmany : u.length < reads.countP Read.isUpTo) :
    ∃ chunks, drain (reads.length + 1) ⟨⟨u, reads⟩, [], len⟩ = some (.ok chunks) := by
  induction reads generalizing u len with
  | nil => simp at hmany
  | cons r reads ih =>
    have herr' : ∀ e, Read.error e ∉ reads := fun e he => herr e (List.mem_cons_of_mem r he)
    rcases Nat.eq_zero_or_pos len with rfl | hlen
    · exact ⟨[], rfl⟩
    have hne : len ≠ 0 := by omega
    rcases r with - | e | k
    · rw [List.countP_cons_of_neg Bool.false_ne_true] at hmany
      obtain ⟨chunks, h⟩ := ih u len herr' hmany
      refine ⟨chunks, ?_⟩
      rw [List.length_cons, drain]
      simp only [pollBuf, if_neg hne, File.readBuf]
      exact h
    · exact absurd List.mem_cons_self (herr e)
    · rw [List.length_cons, drain]
      rw [List.countP_cons_of_pos rfl] at hmany
      rcases u with - | ⟨b, u⟩
      · simp only [pollBuf, if_neg hne, File.readBuf]
        exact ⟨[], rfl⟩
      have hpos : 0 < min (k + 1) (b :: u).length := by
        rw [List.length_cons]
        omega
      generalize b :: u = u at *
      by_cases hcut : len < min (k + 1) u.length
      · obtain ⟨chunks, h⟩ := ih (u.drop (k + 1)) 0 herr' (by
          rw [List.length_drop]
          omega)
        rw [pollBuf_cut hlen hcut]
        exact ⟨u.take len :: chunks, by simp only [h]; rfl⟩
      · obtain ⟨chunks, h⟩ := ih (u.drop (min (k + 1) u.length))
          (min (k + 1) u.length) herr' (by
          rw [List.length_drop]
          omega)
        rw [pollBuf_step hpos rfl (by omega)]
        exact ⟨u.take (min (k + 1) u.length) :: chunks, by simp only [h]; rfl⟩

end FileStream

/-- The body of a response to a file with the given content is the part of the file that the
response announces: it has all of it that there is, it is never longer than announced, and it is as
long as announced unless the file has shrunk. -/
def ServesAnnounced (announced : Nat) (content : List UInt8) (chunks : List (List UInt8)) : Prop :=
  chunks.flatten = content.take (min announced content.length) ∧
    chunks.flatten.length ≤ announced ∧
    (announced ≤ content.length → chunks.flatten.length = announced)

/-- **The body is the announced part of the file iff the sizes of its reads lead there**, for every
file, every length its metadata had and every sequence of answers to its reads.  The body ends if the
file answers without an error, and often enough for all that it holds. -/
theorem fileStream_body_iff (guessMimeType : Str → HeaderValue) (content : List UInt8)
    (reads : List (Read Io)) (metadata : Metadata) (path : Str) (request : Request) :
    let response := NamedFile.intoResponse guessMimeType ⟨⟨content, reads⟩, metadata, path⟩ request
    response.headers.getAll CONTENT_LENGTH = [decimal metadata.len] ∧
      ((∀ e, Read.error e ∉ reads) → content.length < reads.countP Read.isUpTo →
        ∃ n chunks, response.body.drain n = some (.ok chunks)) ∧
      ∀ n chunks, response.body.drain n = some (.ok chunks) →
        (ServesAnnounced metadata.len content chunks ↔
          EndsRight metadata.len content.length (readSizes content.length reads)) := by
  intro response
  refine ⟨rfl, fun herr hmany => ⟨_, FileStream.drain_ends content metadata.len herr hmany⟩, ?_⟩
  intro n chunks h
  obtain ⟨t, ht, hflat⟩ := FileStream.drain_stops n h
  change Stops metadata.len content.length (readSizes content.length reads) t at ht
  have hle := ht.le_size
  have hlen : chunks.flatten.length = t := by
    rw [hflat, List.length_take]
    omega
  rw [← ht.eq_min_iff]
  refine ⟨fun hserves => ?_, fun hmin => ⟨?_, ?_, ?_⟩⟩
  · have := congrArg List.length hserves.1
    rw [hlen, List.length_take] at this
    omega
  · rw [hflat, hmin]
  · omega
  · omega

/-- A file of three bytes that is read in pieces of 1 and 2: the stream ends after two bytes. -/
theorem fileStream_body_short :
    ∃ chunks, (NamedFile.intoResponse (fun _ => [])
        (⟨⟨[97, 98, 99], [.upTo 0, .upTo 1]⟩, ⟨3⟩, []⟩ : NamedFile Empty)
        ⟨.get, .asterisk, []⟩).body.drain 3 = some (.ok chunks) ∧
      ¬ ServesAnnounced 3 [97, 98, 99] chunks := by
  refine ⟨[[97], [98]], rfl, ?_⟩
  intro h
  exact absurd h.1 (by decide)

/-- A file of four bytes that is read in pieces of 3 and 1 is served whole. -/
theorem fileStream_body_whole :
    (NamedFile.intoResponse (fun _ => [])
        (⟨⟨[97, 98, 99, 100], [.upTo 2, .notReady, .upTo 2, .upTo 2]⟩, ⟨4⟩, []⟩ : NamedFile Empty)
        ⟨.get, .asterisk, []⟩).body.drain 4 = some (.ok [[97, 98, 99], [100]]) ∧
      ServesAnnounced 4 [97, 98, 99, 100] [[97, 98, 99], [100]] := by
  have hrun : (NamedFile.intoResponse (fun _ => [])
      (⟨⟨[97, 98, 99, 100], [.upTo 2, .notReady, .upTo 2, .upTo 2]⟩, ⟨4⟩, []⟩ : NamedFile Empty)
      ⟨.get, .asterisk, []⟩).body.drain 4 = some (.ok [[97, 98, 99], [100]]) := rfl
  obtain ⟨-, -, h⟩ := fileStream_body_iff (fun _ => []) [97, 98, 99, 100]
    ([.upTo 2, .notReady, .upTo 2, .upTo 2] : List (Read Empty)) ⟨4⟩ [] ⟨.get, .asterisk, []⟩
  exact ⟨hrun, (h _ _ hrun).mpr (Or.inr (Or.inr (Or.inl ⟨by decide, by decide⟩)))⟩

end Finchers
