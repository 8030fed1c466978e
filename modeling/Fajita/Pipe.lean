import Mathlib.Data.List.Basic
import Fajita.Words

/-!
# Transfers over a pipe

Two programs talk over a byte stream. A call of `read` or `write` may transfer less
than it was asked for; how much each call transfers is a parameter, `Chunks`. A
variable is either transferred by a single call (`Item.once`) or by a loop that goes on
until nothing is missing (`fromPipe`, `toPipe`).

* `toPipe_eq`, `fromPipe_eq` — what the loops do does not depend on the chunks;
* `Reading` — programs that read variables one after the other;
* `Exact` — when the single calls are full, a program reads a value off the bytes of
  some items, and in no other case if what the variables held before is foreign to
  them; composed by `Exact.bind`.

What a short call does not transfer keeps its old contents on the reading side, and is
lost on the writing side.
-/

namespace Fajita

/-! ## Chunks

How many bytes a call of `write` or `read` transfers is up to the kernel. `Chunks` says it for every
call; `Full` says of a list of items that those without a loop around them went through in one call.
-/

/-- How much each call on a pipe transfers. -/
structure Chunks where
  /-- of the bytes asked for by call `i` on variable `k` -/
  size : ℕ → ℕ → ℕ → ℕ
  /-- a call transfers something -/
  pos : ∀ k i n, 0 < n → 0 < size k i n
  /-- and no more than it was asked for -/
  le : ∀ k i n, size k i n ≤ n

/-- Every call transfers all it was asked for. -/
def Chunks.full : Chunks where
  size _ _ n := n
  pos _ _ _ h := h
  le _ _ _ := Nat.le_refl _

/-- A variable on its way through the pipe. -/
structure Item where
  /-- whether it is transferred by a single call -/
  once : Bool
  /-- its bytes -/
  bytes : List UInt8
  deriving DecidableEq

/-- All bytes of some variables. -/
def flat (its : List Item) : List UInt8 := its.flatMap Item.bytes

@[simp] theorem flat_nil : flat [] = [] := rfl

@[simp] theorem flat_cons (it : Item) (its : List Item) : flat (it :: its) = it.bytes ++ flat its :=
  rfl

/-- The bytes of two lists of items, one after the other. -/
@[simp] theorem flat_append (its its' : List Item) : flat (its ++ its') = flat its ++ flat its' :=
  List.flatMap_append

/-- The single calls on some variables, numbered from `k`, are full. -/
def Full (c : Chunks) : ℕ → List Item → Prop
  | _, [] => True
  | k, it :: its =>
    (it.once = true → c.size k 0 it.bytes.length = it.bytes.length) ∧ Full c (k + 1) its

/-- With full transfers every item goes through in one piece. -/
theorem full_full (its : List Item) (k : ℕ) : Full .full k its := by
  induction its generalizing k with
  | nil => trivial
  | cons it its ih => exact ⟨fun _ => rfl, ih (k + 1)⟩

/-- A list is sent in full if its parts are. -/
theorem full_append {c : Chunks} {its its' : List Item} {k : ℕ} :
    Full c k (its ++ its') ↔ Full c k its ∧ Full c (k + its.length) its' := by
  induction its generalizing k with
  | nil => simp [Full]
  | cons it its ih =>
    rw [List.cons_append, Full, Full, ih, and_assoc, List.length_cons, Nat.add_right_comm,
      Nat.add_assoc k]

/-! ## Writing -/

/-- The loop of `to_pipe`, from offset `i` on: the bytes it gets into the pipe. `fuel` is
the number of calls left. -/
def toPipeLoop (n : ℕ → ℕ → ℕ) (addr : List UInt8) : ℕ → ℕ → ℕ → List UInt8
  | 0, _, _ => []
  | fuel + 1, call, i =>
    if i ≠ addr.length then
      let m := n call (addr.length - i)
      (addr.drop i).take m ++ toPipeLoop n addr fuel (call + 1) (i + m)
    else []

/-- `to_pipe` -/
def toPipe (c : Chunks) (k : ℕ) (addr : List UInt8) : List UInt8 :=
  toPipeLoop (c.size k) addr addr.length 0 0

/-- **The loop of `to_pipe`** sends the rest of the buffer, however the calls of `write` cut it. -/
theorem toPipeLoop_eq (c : Chunks) (k : ℕ) (addr : List UInt8) (fuel call i : ℕ)
    (hi : i ≤ addr.length) (hfuel : addr.length - i ≤ fuel) :
    toPipeLoop (c.size k) addr fuel call i = addr.drop i := by
  induction fuel generalizing call i with
  | zero =>
    rw [toPipeLoop, List.drop_eq_nil_of_le (by omega)]
  | succ fuel ih =>
    rw [toPipeLoop]
    split
    · have hpos := c.pos k call (addr.length - i) (by omega)
      have hle := c.le k call (addr.length - i)
      dsimp only
      rw [ih _ _ (by omega) (by omega), ← List.drop_drop, List.take_append_drop]
    · rw [List.drop_eq_nil_of_le (by omega)]

/-- `to_pipe` writes everything. -/
theorem toPipe_eq (c : Chunks) (k : ℕ) (addr : List UInt8) : toPipe c k addr = addr := by
  rw [toPipe, toPipeLoop_eq c k addr _ _ _ (by omega) (by omega), List.drop_zero]

/-- What gets into the pipe of a variable. -/
def Item.send (c : Chunks) (k : ℕ) (it : Item) : List UInt8 :=
  if it.once then it.bytes.take (c.size k 0 it.bytes.length) else toPipe c k it.bytes

/-- What gets into the pipe of some variables, numbered from `k`. -/
def send (c : Chunks) : ℕ → List Item → List UInt8
  | _, [] => []
  | k, it :: its => it.send c k ++ send c (k + 1) its

theorem Item.send_length_le (c : Chunks) (k : ℕ) (it : Item) :
    (it.send c k).length ≤ it.bytes.length := by
  rw [Item.send]
  split
  · exact List.length_take_le' ..
  · rw [toPipe_eq]

/-- No more is sent than there is. -/
theorem send_length_le (c : Chunks) (k : ℕ) (its : List Item) :
    (send c k its).length ≤ (flat its).length := by
  induction its generalizing k with
  | nil => exact Nat.le_refl _
  | cons it its ih =>
    have hit := it.send_length_le c k
    have hits := ih (k + 1)
    rw [send, flat_cons, List.length_append, List.length_append]
    omega

/-- With full single calls everything gets into the pipe. -/
theorem send_of_full {c : Chunks} {k : ℕ} {its : List Item} (h : Full c k its) :
    send c k its = flat its := by
  induction its generalizing k with
  | nil => rfl
  | cons it its ih =>
    rw [send, flat_cons, ih h.2, Item.send]
    split
    · next honce => rw [h.1 honce, List.take_length]
    · rw [toPipe_eq]

/-- If a single call is not full, something is missing from the pipe. -/
theorem full_of_send {c : Chunks} {k : ℕ} {its : List Item}
    (h : (flat its).length ≤ (send c k its).length) : Full c k its := by
  induction its generalizing k with
  | nil => trivial
  | cons it its ih =>
    have hit := it.send_length_le c k
    have hits := send_length_le c (k + 1) its
    rw [send, flat_cons, List.length_append, List.length_append] at h
    refine ⟨fun honce => ?_, ih (by omega)⟩
    have hle := c.le k 0 it.bytes.length
    have hlen : it.bytes.length ≤ (it.send c k).length := by omega
    rw [Item.send, if_pos honce, List.length_take] at hlen
    omega

/-! ## Reading -/

/-- Where a reading program stands. -/
structure Input where
  /-- the number of the next variable -/
  next : ℕ
  /-- what is left in the pipe -/
  stream : List UInt8

/-- A program that reads from a pipe. -/
def Reading (α : Type) : Type := Input → α × Input

namespace Reading

/-- Read nothing. -/
protected def pure {α : Type} (x : α) : Reading α := fun st => (x, st)

/-- Read one thing after the other. -/
protected def bind {α β : Type} (m : Reading α) (f : α → Reading β) : Reading β :=
  fun st => f (m st).1 (m st).2

instance : Monad Reading where
  pure := Reading.pure
  bind := Reading.bind

@[simp] theorem pure_apply {α : Type} (x : α) (st : Input) :
    (pure x : Reading α) st = (x, st) := rfl

@[simp] theorem bind_apply {α β : Type} (m : Reading α) (f : α → Reading β) (st : Input) :
    (m >>= f) st = f (m st).1 (m st).2 := rfl

/-- A single call of `read` into a variable that holds `buf`. -/
def readOnce (c : Chunks) (buf : List UInt8) : Reading (List UInt8) := fun st =>
  let n := min (c.size st.next 0 buf.length) st.stream.length
  (st.stream.take n ++ buf.drop n, ⟨st.next + 1, st.stream.drop n⟩)

/-- The loop of `from_pipe`, from offset `i` on: what the variable holds afterwards and
what is left in the pipe. -/
def fromPipeLoop (n : ℕ → ℕ → ℕ) (len : ℕ) :
    ℕ → ℕ → ℕ → List UInt8 → List UInt8 → List UInt8 × List UInt8
  | 0, _, _, addr, stream => (addr, stream)
  | fuel + 1, call, i, addr, stream =>
    if i ≠ len then
      let m := min (n call (len - i)) stream.length
      if m = 0 then (addr, stream)
      else
        fromPipeLoop n len fuel (call + 1) (i + m)
          (addr.take i ++ stream.take m ++ addr.drop (i + m)) (stream.drop m)
    else (addr, stream)

/-- `from_pipe` into a variable that holds `buf`. -/
def fromPipe (c : Chunks) (buf : List UInt8) : Reading (List UInt8) := fun st =>
  let r := fromPipeLoop (c.size st.next) buf.length buf.length 0 0 buf st.stream
  (r.1, ⟨st.next + 1, r.2⟩)

/-- **The loop of `from_pipe`** fills the rest of the buffer from the stream, and keeps what was
there where the stream ends. -/
theorem fromPipeLoop_eq (c : Chunks) (k len fuel call i : ℕ) (addr stream : List UInt8)
    (haddr : addr.length = len) (hi : i ≤ len) (hfuel : len - i ≤ fuel) :
    fromPipeLoop (c.size k) len fuel call i addr stream =
      (addr.take i ++ stream.take (len - i) ++ addr.drop (i + stream.length),
        stream.drop (len - i)) := by
  induction fuel generalizing call i addr stream with
  | zero =>
    have hlen : len - i = 0 := by omega
    rw [fromPipeLoop, hlen, List.take_zero, List.append_nil, List.drop_zero,
      List.drop_eq_nil_of_le (by omega), List.append_nil, List.take_of_length_le (by omega)]
  | succ fuel ih =>
    rw [fromPipeLoop]
    split
    · have hpos := c.pos k call (len - i) (by omega)
      have hle := c.le k call (len - i)
      dsimp only
      generalize hm : min (c.size k call (len - i)) stream.length = m
      -- `read` returns 0 at the end of the stream only, as every chunk is positive
      split
      · have hstream : stream = [] := List.eq_nil_of_length_eq_zero (by omega)
        subst hstream
        simp
      · have hpre : (addr.take i).length = i := by
          rw [List.length_take]
          omega
        have hboth : (addr.take i ++ stream.take m).length = i + m := by
          rw [List.length_append, hpre, List.length_take]
          omega
        have hlen : (addr.take i ++ stream.take m ++ addr.drop (i + m)).length = len := by
          rw [List.length_append, hboth, List.length_drop]
          omega
        -- what this call got and what the rest of the loop gets, put together
        have hgot : stream.take (len - i) =
            stream.take m ++ (stream.drop m).take (len - (i + m)) := by
          rw [show len - i = m + (len - (i + m)) by omega, List.take_add]
        have hold : (addr.take i ++ stream.take m ++ addr.drop (i + m)).drop
            (i + m + (stream.length - m)) = addr.drop (i + stream.length) := by
          rw [← List.drop_drop, List.drop_left' hboth, List.drop_drop,
            show i + m + (stream.length - m) = i + stream.length by omega]
        have hleft : (stream.drop m).drop (len - (i + m)) = stream.drop (len - i) := by
          rw [List.drop_drop, show m + (len - (i + m)) = len - i by omega]
        rw [ih _ _ _ _ hlen (by omega) (by omega), List.take_left' hboth, List.length_drop, hold,
          hleft, hgot, List.append_assoc (addr.take i)]
    · have hlen : len - i = 0 := by omega
      rw [hlen, List.take_zero, List.append_nil, List.drop_zero,
        List.drop_eq_nil_of_le (by omega), List.append_nil, List.take_of_length_le (by omega)]

/-- What a transfer of as much as possible leaves in a variable. -/
theorem take_min_append_drop_min (buf stream : List UInt8) :
    stream.take (min buf.length stream.length) ++ buf.drop (min buf.length stream.length) =
      stream.take buf.length ++ buf.drop stream.length := by
  rcases Nat.le_total buf.length stream.length with h | h
  · rw [Nat.min_eq_left h, List.drop_length, List.drop_eq_nil_of_le h]
  · rw [Nat.min_eq_right h, List.take_length, List.take_of_length_le h]

/-- `from_pipe` reads all that comes, up to the length of the variable. -/
theorem fromPipe_eq (c : Chunks) (buf : List UInt8) (st : Input) :
    fromPipe c buf st =
      (st.stream.take (min buf.length st.stream.length) ++
          buf.drop (min buf.length st.stream.length),
        ⟨st.next + 1, st.stream.drop (min buf.length st.stream.length)⟩) := by
  have hdrop : st.stream.drop (min buf.length st.stream.length) = st.stream.drop buf.length := by
    rcases Nat.le_total buf.length st.stream.length with h | h
    · rw [Nat.min_eq_left h]
    · rw [Nat.min_eq_right h, List.drop_length, List.drop_eq_nil_of_le h]
  rw [fromPipe, fromPipeLoop_eq c _ _ _ _ _ _ _ rfl (Nat.zero_le _) (by omega), List.take_zero,
    List.nil_append, Nat.sub_zero, Nat.zero_add, take_min_append_drop_min, hdrop]

/-- Read a variable that holds `buf`, by a single call or by the loop. -/
def readItem (c : Chunks) (once : Bool) (buf : List UInt8) : Reading (List UInt8) :=
  if once then readOnce c buf else fromPipe c buf

/-- Reading replaces a first part of the variable, the whole of it if the pipe holds
enough and a single call is full. -/
theorem readItem_eq (c : Chunks) (once : Bool) (buf : List UInt8) (st : Input) :
    ∃ n ≤ buf.length, n ≤ st.stream.length ∧
      readItem c once buf st =
        (st.stream.take n ++ buf.drop n, ⟨st.next + 1, st.stream.drop n⟩) ∧
      (n = buf.length ↔ (once = true → c.size st.next 0 buf.length = buf.length) ∧
        buf.length ≤ st.stream.length) ∧
      (0 < buf.length → 0 < st.stream.length → 0 < n) := by
  have hle := c.le st.next 0 buf.length
  have hpos := c.pos st.next 0 buf.length
  cases once with
  | true =>
    refine ⟨min (c.size st.next 0 buf.length) st.stream.length, by omega, by omega, rfl, ?_, ?_⟩
    · simp only [forall_const]
      omega
    · omega
  | false =>
    refine ⟨min buf.length st.stream.length, by omega, by omega, fromPipe_eq c buf st, ?_, ?_⟩
    · simp only [Bool.false_eq_true, false_implies, true_and]
      omega
    · omega

/-- Reading an item does not change the length of the buffer. -/
theorem readItem_length (c : Chunks) (once : Bool) (buf : List UInt8) (st : Input) :
    (readItem c once buf st).1.length = buf.length := by
  obtain ⟨n, hbuf, hstream, heq, -, -⟩ := readItem_eq c once buf st
  rw [heq, List.length_append, List.length_take, List.length_drop]
  omega

/-- Read a word with a single call, into a variable that holds `buf`. -/
def word {α : Type} (C : Codec α) (c : Chunks) (buf : List UInt8) : Reading α := do
  let bs ← readItem c true buf
  pure (C.get bs)

/-- Read an array of `n` words with `from_pipe`, into a variable that holds `buf`. -/
def array {α : Type} (C : Codec α) (c : Chunks) (n : ℕ) (buf : List UInt8) :
    Reading (List α) := do
  let bs ← readItem c false buf
  pure (C.unpack n bs)

/-- Read the words of an array with a single call each; the array holds `old`. -/
def each {α : Type} (C : Codec α) (c : Chunks) : List α → Reading (List α)
  | [] => pure []
  | x :: old => do
    let y ← word C c (C.put x)
    let ys ← each C c old
    pure (y :: ys)

end Reading

/-! ## Exact reading -/

/-- Contents that agree with the given bytes nowhere. -/
def foreign (bs : List UInt8) : List UInt8 := bs.map (· + 1)

@[simp] theorem foreign_length (bs : List UInt8) : (foreign bs).length = bs.length :=
  List.length_map ..

/-- If foreign contents are to turn into the given bytes, all of them are replaced. -/
theorem length_le_of_foreign {bs stream : List UInt8} {n : ℕ} (hn : n ≤ stream.length)
    (h : stream.take n ++ (foreign bs).drop n = bs) : bs.length ≤ n := by
  by_contra hlt
  have htake : (stream.take n).length = n := by
    rw [List.length_take]
    omega
  have hrest := congrArg (List.drop n) h
  rw [List.drop_left' htake, foreign, ← List.map_drop] at hrest
  cases hcases : bs.drop n with
  | nil =>
    have := List.drop_eq_nil_iff.mp hcases
    omega
  | cons b rest =>
    rw [hcases, List.map_cons, List.cons.injEq] at hrest
    -- each byte of `foreign bs` differs from the byte it stands for
    have hne : b + 1 ≠ b := by
      intro hb
      have := congrArg UInt8.toNat hb
      rw [UInt8.toNat_add] at this
      have := b.toNat_lt
      simp only [UInt8.toNat_one] at *
      omega
    exact hne hrest.1

/-- With full single calls the program reads `x` off the bytes of `its`, its variables
numbered from `k`. Without them, or off other bytes, it does not read `x`, given `P`:
that what the variables held before is foreign to what they are to receive. -/
structure Exact {α : Type} (P : Prop) (c : Chunks) (k : ℕ) (m : Reading α) (x : α)
    (its : List Item) : Prop where
  /-- it reads `x` -/
  reads : ∀ stream, Full c k its →
    m ⟨k, flat its ++ stream⟩ = (x, ⟨k + its.length, stream⟩)
  /-- only then -/
  only : P → ∀ stream, (m ⟨k, stream⟩).1 = x → Full c k its ∧ flat its <+: stream

namespace Exact

open Reading

variable {α β : Type} {P : Prop} {c : Chunks} {k : ℕ}

protected theorem pure (x : α) : Exact P c k (pure x : Reading α) x [] where
  reads _ _ := rfl
  only _ _ _ := ⟨trivial, List.nil_prefix⟩

/-- **Sequencing.** What the second program reads must determine what the first one
read. -/
theorem bind {m : Reading α} {f : α → Reading β} {x : α} {y : β} {its its' : List Item}
    (hm : Exact P c k m x its) (hf : Exact P c (k + its.length) (f x) y its')
    (hdet : ∀ st, ((m >>= f) st).1 = y → (m st).1 = x) :
    Exact P c k (m >>= f) y (its ++ its') where
  reads stream hfull := by
    obtain ⟨hits, hits'⟩ := full_append.mp hfull
    rw [bind_apply, flat_append, List.append_assoc, hm.reads _ hits, hf.reads _ hits',
      List.length_append, Nat.add_assoc]
  only hP stream hy := by
    obtain ⟨hits, rest, hrest⟩ := hm.only hP stream (hdet _ hy)
    subst hrest
    rw [bind_apply, hm.reads _ hits] at hy
    obtain ⟨hits', hpre⟩ := hf.only hP _ hy
    rw [flat_append]
    exact ⟨full_append.mpr ⟨hits, hits'⟩, (List.prefix_append_right_inj _).mpr hpre⟩

/-- Computing with what has been read. -/
theorem map {m : Reading α} {x : α} {its : List Item} (g : α → β) (hm : Exact P c k m x its)
    (hdet : ∀ st, g (m st).1 = g x → (m st).1 = x) :
    Exact P c k (m >>= fun a => pure (g a)) (g x) its := by
  have h := bind (f := fun a => pure (g a)) hm (Exact.pure (g x)) hdet
  rwa [List.append_nil] at h

/-- Reading the bytes of one variable. -/
theorem item (once : Bool) {buf bs : List UInt8} (hlen : buf.length = bs.length)
    (hold : P → buf = foreign bs) : Exact P c k (readItem c once buf) bs [⟨once, bs⟩] where
  reads stream hfull := by
    obtain ⟨n, -, -, heq, hn, -⟩ := readItem_eq c once buf ⟨k, flat [⟨once, bs⟩] ++ stream⟩
    have hall : n = buf.length := by
      rw [hn, hlen]
      refine ⟨hfull.1, ?_⟩
      rw [flat_cons, flat_nil, List.append_nil, List.length_append]
      exact Nat.le_add_right ..
    subst hall
    rw [heq, flat_cons, flat_nil, List.append_nil, hlen, List.take_left, List.drop_left, ← hlen,
      List.drop_length, List.append_nil]
    rfl
  only hP stream hread := by
    obtain ⟨n, hbuf, hstream, heq, hn, -⟩ := readItem_eq c once buf ⟨k, stream⟩
    rw [heq, hold hP] at hread
    have hle := length_le_of_foreign hstream hread
    have hall : n = buf.length := by omega
    obtain ⟨honce, havail⟩ := hn.mp hall
    rw [hlen] at honce
    refine ⟨⟨honce, trivial⟩, ?_⟩
    rw [← hold hP, hall, List.drop_length, List.append_nil] at hread
    rw [flat_cons, flat_nil, List.append_nil, ← hread]
    exact List.take_prefix ..

/-- Reading a word. -/
theorem word {C : Codec α} {buf : List UInt8} (x : α) (hlen : buf.length = C.width)
    (hold : P → buf = foreign (C.put x)) :
    Exact P c k (word C c buf) x [⟨true, C.put x⟩] := by
  have hput := C.put_length x
  have hitem : Exact P c k (readItem c true buf) (C.put x) [⟨true, C.put x⟩] :=
    item true (hlen.trans hput.symm) hold
  have h := map C.get hitem fun st heq =>
    (C.get_inj ((readItem_length c true buf st).trans hlen) hput).mp heq
  rwa [C.get_put] at h

/-- Reading an array with the loop. -/
theorem array {C : Codec α} {buf : List UInt8} {n : ℕ} (xs : List α) (hn : xs.length = n)
    (hlen : buf.length = n * C.width) (hold : P → buf = foreign (C.pack xs)) :
    Exact P c k (array C c n buf) xs [⟨false, C.pack xs⟩] := by
  have hpack : (C.pack xs).length = n * C.width := by rw [C.pack_length, hn]
  have hunpack : C.unpack n (C.pack xs) = xs := by rw [← hn, C.unpack_pack]
  have hitem : Exact P c k (readItem c false buf) (C.pack xs) [⟨false, C.pack xs⟩] :=
    item false (hlen.trans hpack.symm) hold
  have h := map (C.unpack n) hitem fun st heq => by
    rw [← C.pack_unpack n _ ((readItem_length c false buf st).trans hlen), heq, hunpack]
  rwa [hunpack] at h

/-- Reading an array word by word. -/
theorem each {C : Codec α} {old : List α} (xs : List α) (hlen : old.length = xs.length)
    (hold : P → old.map C.put = xs.map fun x => foreign (C.put x)) :
    Exact P c k (each C c old) xs (xs.map fun x => ⟨true, C.put x⟩) := by
  induction old generalizing xs k with
  | nil =>
    rw [List.length_nil] at hlen
    rw [List.length_eq_zero_iff.mp hlen.symm]
    exact Exact.pure []
  | cons y old ih =>
    cases xs with
    | nil => cases hlen
    | cons x xs =>
      have hhead : P → C.put y = foreign (C.put x) := fun hP => (List.cons.inj (hold hP)).1
      have htail : P → old.map C.put = xs.map fun x => foreign (C.put x) :=
        fun hP => (List.cons.inj (hold hP)).2
      refine bind (word x (C.put_length y) hhead) ?_ fun st h => (List.cons.inj h).1
      exact map (x :: ·) (ih xs (Nat.succ.inj hlen) htail) fun st h => (List.cons.inj h).2

end Exact

end Fajita
