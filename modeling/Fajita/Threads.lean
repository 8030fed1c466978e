import Fajita.Loop
import Fajita.Schedule
import Mathlib.Logic.Function.Basic

/-!
# Threads that share a memory

Programs of threads that run interleaved, access by access. A `Prog` is a tree of accesses to a
memory `M`; where an access is to an element of an array, an `index` says which. Between two
accesses other threads may do anything, so all that a program can rely on is the invariant of the
memory, and what it has noted: a note claims something of the memory (`Rules.knows`) that the
program has found out with one access and relies on with another.

`Safe` is the condition on a program alone: each access keeps the invariant and establishes what
it notes, and each index is within its array. `Sound.run` is the rule: if every program is safe
and no step takes from another thread what that has noted (`Undisturbed`), the arrays are never
left. `exec` is a program that is not interrupted, and `goesTo_exec` that a thread alone does just
that.
-/

namespace Fajita

/-- The rest of a thread's program, with notes in `N` and a result in `α`. -/
inductive Prog (M N Arr α : Type) : Type
  /-- the end -/
  | done (a : α)
  /-- an access: the memory `m` becomes `f m`, the note becomes `note m`, and `k m` is left -/
  | act (f : M → M) (note : M → Option N) (k : M → Prog M N Arr α)
  /-- the next access is to the `i`-th element of `arr` -/
  | index (arr : Arr) (i : ℕ) (k : Prog M N Arr α)

namespace Prog

variable {M N Arr α β : Type}

/-- One program after the other. -/
protected def bind : Prog M N Arr α → (α → Prog M N Arr β) → Prog M N Arr β
  | done a, g => g a
  | act f note k, g => act f note fun m => (k m).bind g
  | index arr i k, g => index arr i (k.bind g)

instance : Monad (Prog M N Arr) where
  pure := done
  bind := Prog.bind

/-! ## Accesses -/

/-- Something of the memory is read. -/
def get (g : M → α) : Prog M N Arr α := act id (fun _ => none) fun m => done (g m)

/-- Something of the memory is written. -/
def put (f : M → M) : Prog M N Arr Unit := act f (fun _ => none) fun _ => done ()

/-- The next access is to the `i`-th element of `arr`. -/
def touch (arr : Arr) (i : ℕ) : Prog M N Arr Unit := index arr i (done ())

/-- `if(c) p` -/
def only (c : Prop) [Decidable c] (p : Prog M N Arr Unit) : Prog M N Arr Unit :=
  if c then p else done ()

/-- `for(i = 0; i < n; i++) body(i)` -/
def loop : ℕ → (ℕ → Prog M N Arr Unit) → Prog M N Arr Unit
  | 0, _ => done ()
  | n + 1, body => loop n body >>= fun _ => body n

/-- `for(i = 0; i < n; i++) a = body(i, a)` -/
def loopWith : ℕ → (ℕ → α → Prog M N Arr α) → α → Prog M N Arr α
  | 0, _, a => done a
  | n + 1, body, a => loopWith n body a >>= body n

/-! ## A program alone -/

/-- The result and the memory, if nobody interrupts. -/
def exec : Prog M N Arr α → M → α × M
  | done a, m => (a, m)
  | act f _ k, m => (k m).exec (f m)
  | index _ _ k, m => k.exec m

@[simp] theorem exec_pure (a : α) (m : M) : exec (pure a : Prog M N Arr α) m = (a, m) := rfl

theorem exec_bind (p : Prog M N Arr α) (g : α → Prog M N Arr β) (m : M) :
    (p >>= g).exec m = (g (p.exec m).1).exec (p.exec m).2 := by
  change (p.bind g).exec m = _
  induction p generalizing m with
  | done a => rfl
  | act f note k ih => exact ih m (f m)
  | index arr i k ih => exact ih m

@[simp] theorem exec_get (g : M → α) (m : M) : (get g : Prog M N Arr α).exec m = (g m, m) := rfl

@[simp] theorem exec_get_bind (g : M → α) (k : α → Prog M N Arr β) (m : M) :
    (get g >>= k).exec m = (k (g m)).exec m := rfl

@[simp] theorem exec_andThen (p : Prog M N Arr Unit) (k : Unit → Prog M N Arr β) (m : M) :
    (p >>= k).exec m = (k ()).exec (p.exec m).2 := exec_bind p k m

@[simp] theorem exec_put (f : M → M) (m : M) : (put f : Prog M N Arr Unit).exec m = ((), f m) :=
  rfl

@[simp] theorem exec_touch (arr : Arr) (i : ℕ) (m : M) :
    (touch arr i : Prog M N Arr Unit).exec m = ((), m) := rfl

@[simp] theorem exec_only (c : Prop) [Decidable c] (p : Prog M N Arr Unit) (m : M) :
    (only c p).exec m = ((), if c then (p.exec m).2 else m) := by
  simp only [only]
  split <;> rfl

theorem exec_ite (c : Prop) [Decidable c] (p q : Prog M N Arr α) (m : M) :
    (if c then p else q).exec m = if c then p.exec m else q.exec m :=
  apply_ite (fun r : Prog M N Arr α => r.exec m) ..

theorem exec_loop (n : ℕ) (body : ℕ → Prog M N Arr Unit) (m : M) :
    (loop n body).exec m = ((), forRange n (fun i m => ((body i).exec m).2) m) := by
  induction n with
  | zero => rfl
  | succ n ih =>
    rw [loop, exec_bind, ih]
    rfl

theorem exec_loopWith (n : ℕ) (body : ℕ → α → Prog M N Arr α) (a : α) (m : M) :
    (loopWith n body a).exec m = forRange n (fun i x => (body i x.1).exec x.2) (a, m) := by
  induction n with
  | zero => rfl
  | succ n ih =>
    rw [loopWith, exec_bind, ih]
    rfl

end Prog

/-! ## Safe programs

A rule says what every thread relies on and what it keeps. A thread may remember one thing it has
read, its note, that no other thread takes back from it.
-/

/-- What the threads agree on. -/
structure Rules (M N Arr : Type) where
  /-- what holds of the memory at all times -/
  inv : M → Prop
  /-- what a note claims -/
  knows : N → M → Prop
  /-- the elements of an array -/
  size : Arr → ℕ

namespace Rules

variable {M N Arr α β : Type} (R : Rules M N Arr)

/-- What is known with or without a note. -/
def Knows : Option N → M → Prop
  | none, _ => True
  | some n, m => R.knows n m

/-- The program keeps to the rules, with the given note, whatever others do to the memory that
leaves the invariant and the note alone; it ends with a result in `Q` and without a note. -/
def Safe (Q : α → Prop) : Prog M N Arr α → Option N → Prop
  | .done a, n => n = none ∧ Q a
  | .act f note k, n => ∀ m, R.inv m → R.Knows n m →
    R.inv (f m) ∧ R.Knows (note m) (f m) ∧ Safe Q (k m) (note m)
  | .index arr i k, n => i < R.size arr ∧ Safe Q k n

/-- A safe program without a result, from the start. -/
def Good (p : Prog M N Arr Unit) : Prop := R.Safe (fun _ => True) p none

variable {R} {Q : α → Prop} {Q' : β → Prop}

theorem Safe.bind {p : Prog M N Arr α} {g : α → Prog M N Arr β} {n : Option N}
    (h : R.Safe Q p n) (hg : ∀ a, Q a → R.Safe Q' (g a) none) : R.Safe Q' (p >>= g) n := by
  change R.Safe Q' (p.bind g) n
  induction p generalizing n with
  | done a =>
    obtain ⟨rfl, ha⟩ := h
    exact hg a ha
  | act f note k ih =>
    intro m hm hn
    obtain ⟨hinv, hknows, hrest⟩ := h m hm hn
    exact ⟨hinv, hknows, ih m hrest⟩
  | index arr i k ih => exact ⟨h.1, ih h.2⟩

theorem safe_pure {a : α} (h : Q a) : R.Safe Q (pure a) none := ⟨rfl, h⟩

theorem safe_get {g : M → α} (h : ∀ m, R.inv m → Q (g m)) : R.Safe Q (Prog.get g) none :=
  fun m hm _ => ⟨hm, trivial, rfl, h m hm⟩

theorem Good.put {f : M → M} (h : ∀ m, R.inv m → R.inv (f m)) : R.Good (Prog.put f) :=
  fun m hm _ => ⟨h m hm, trivial, rfl, trivial⟩

theorem Good.touch {arr : Arr} {i : ℕ} (h : i < R.size arr) : R.Good (Prog.touch arr i) :=
  ⟨h, rfl, trivial⟩

theorem Good.only {c : Prop} [Decidable c] {p : Prog M N Arr Unit} (h : c → R.Good p) :
    R.Good (Prog.only c p) := by
  simp only [Prog.only]
  split
  · next hc => exact h hc
  · exact ⟨rfl, trivial⟩

/-! ### What follows an access

One lemma for each kind of access, with the rest of the program behind it.
-/

/-- After a read: the value is one that the invariant allows. -/
theorem Safe.get {g : M → α} {k : α → Prog M N Arr β}
    (h : ∀ m, R.inv m → R.Safe Q' (k (g m)) none) : R.Safe Q' (Prog.get g >>= k) none :=
  (safe_get (Q := fun a => R.Safe Q' (k a) none) h).bind fun _ ha => ha

/-- After a part without a result. -/
theorem Good.andThen {p : Prog M N Arr Unit} {k : Unit → Prog M N Arr β} (h : R.Good p)
    (hk : R.Safe Q' (k ()) none) : R.Safe Q' (p >>= k) none :=
  h.bind fun _ _ => hk

/-- An element of an array is written. -/
theorem Good.write {arr : Arr} {i : ℕ} {f : M → M} (hi : i < R.size arr)
    (hf : ∀ m, R.inv m → R.inv (f m)) : R.Good (Prog.touch arr i >>= fun _ => Prog.put f) :=
  (Good.touch hi).andThen (Good.put hf)

theorem Good.loop {n : ℕ} {body : ℕ → Prog M N Arr Unit} (h : ∀ i < n, R.Good (body i)) :
    R.Good (Prog.loop n body) := by
  induction n with
  | zero => exact ⟨rfl, trivial⟩
  | succ n ih => exact (ih fun i hi => h i (Nat.lt_succ_of_lt hi)).andThen (h n n.lt_succ_self)

theorem Safe.loopWith {n : ℕ} {body : ℕ → α → Prog M N Arr α}
    (h : ∀ i < n, ∀ a, R.Safe (fun _ => True) (body i a) none) (a : α) :
    R.Safe (fun _ => True) (Prog.loopWith n body a) none := by
  induction n with
  | zero => exact ⟨rfl, trivial⟩
  | succ n ih =>
    exact (ih fun i hi => h i (Nat.lt_succ_of_lt hi)).bind fun b _ => h n n.lt_succ_self b

end Rules

/-! ## Threads

Any number of threads, and at each step any of them goes on by one access. If every program keeps to
the rules, so does every interleaving.
-/

/-- A thread: what it has noted, and what is left of its program. -/
structure Thread (M N Arr : Type) where
  /-- the note -/
  note : Option N
  /-- the rest of the program -/
  prog : Prog M N Arr Unit

/-- The memory and the threads, of which there is one for each element of `T`. -/
structure World (T M N Arr : Type) where
  /-- the memory -/
  mem : M
  /-- the threads -/
  thread : T → Thread M N Arr

namespace World

variable {T I M N Arr : Type} [DecidableEq T] (who : I → T) (start : I → Prog M N Arr Unit)

/-- No thread has begun. -/
def idle (m : M) : World T M N Arr := ⟨m, fun _ => ⟨none, .done ()⟩⟩

/-- A step of the thread `who l`; one that is at its end begins the program `start l`. -/
def step (x : World T M N Arr) (l : I) : World T M N Arr :=
  match (x.thread (who l)).prog with
  | .done _ => { x with thread := Function.update x.thread (who l) ⟨none, start l⟩ }
  | .act f note k =>
    { mem := f x.mem
      thread := Function.update x.thread (who l) ⟨note x.mem, k x.mem⟩ }
  | .index _ _ k =>
    { x with thread := Function.update x.thread (who l) ⟨(x.thread (who l)).note, k⟩ }

/-- What a thread is about to access, if it is in an array. -/
def accessing (x : World T M N Arr) (t : T) : Option (Arr × ℕ) :=
  match (x.thread t).prog with
  | .index arr i _ => some (arr, i)
  | _ => none

/-- Every access about to be made is within its array. -/
def InBounds (size : Arr → ℕ) (x : World T M N Arr) : Prop :=
  ∀ t arr i, x.accessing t = some (arr, i) → i < size arr

/-- The step takes from no other thread what it has noted. -/
def Undisturbed (R : Rules M N Arr) (x : World T M N Arr) (l : I) : Prop :=
  ∀ t ≠ who l, R.Knows (x.thread t).note (step who start x l).mem

/-- All is as the rules have it. -/
structure Sound (R : Rules M N Arr) (x : World T M N Arr) : Prop where
  /-- the invariant holds -/
  inv : R.inv x.mem
  /-- the notes are true -/
  knows : ∀ t, R.Knows (x.thread t).note x.mem
  /-- what is left of the programs is safe -/
  safe : ∀ t, R.Safe (fun _ => True) (x.thread t).prog (x.thread t).note

variable {who start} {R : Rules M N Arr} {x : World T M N Arr} {l : I}

omit [DecidableEq T] in
theorem sound_idle {m : M} (h : R.inv m) : Sound R (idle m : World T M N Arr) :=
  ⟨h, fun _ => trivial, fun _ => ⟨rfl, trivial⟩⟩

omit [DecidableEq T] in
/-- A thread that is at its end has noted nothing. -/
theorem Sound.note_eq_none (h : Sound R x) {t : T} {u : Unit} (ht : (x.thread t).prog = .done u) :
    (x.thread t).note = none := by
  have hsafe := h.safe t
  rw [ht] at hsafe
  exact hsafe.1

omit [DecidableEq T] in
theorem Sound.inBounds (h : Sound R x) : x.InBounds R.size := by
  intro t arr i hacc
  have hsafe := h.safe t
  unfold accessing at hacc
  cases hprog : (x.thread t).prog with
  | done a => rw [hprog] at hacc; cases hacc
  | act f note k => rw [hprog] at hacc; cases hacc
  | index arr' i' k =>
    rw [hprog] at hacc hsafe
    obtain ⟨rfl, rfl⟩ := Prod.mk.inj (Option.some.inj hacc)
    exact hsafe.1

/-- A step leaves all other threads as they are. -/
theorem step_thread_of_ne {t : T} (ht : t ≠ who l) :
    (step who start x l).thread t = x.thread t := by
  simp only [step]
  split <;> exact Function.update_of_ne ht ..

/-- A thread that makes no step stays as it is. -/
theorem runFrom_thread {ls : List I} {t : T} (hls : ∀ l ∈ ls, who l ≠ t) :
    (runFrom (step who start) x ls).thread t = x.thread t := by
  induction ls generalizing x with
  | nil => rfl
  | cons l ls ih =>
    rw [runFrom_cons, ih fun l' hl' => hls l' (List.mem_cons_of_mem l hl'),
      step_thread_of_ne (hls l List.mem_cons_self).symm]

/-- **The step rule.** -/
theorem Sound.step (h : Sound R x) (hstart : R.Good (start l))
    (hund : Undisturbed who start R x l) : Sound R (World.step who start x l) := by
  have hsafe := h.safe (who l)
  have hothers : ∀ t ≠ who l, R.Knows ((World.step who start x l).thread t).note
        (World.step who start x l).mem ∧
      R.Safe (fun _ => True) ((World.step who start x l).thread t).prog
        ((World.step who start x l).thread t).note := by
    intro t ht
    rw [step_thread_of_ne ht]
    exact ⟨hund t ht, h.safe t⟩
  -- what is left to say is about the thread that makes the step
  suffices hself : R.inv (World.step who start x l).mem ∧
      R.Knows ((World.step who start x l).thread (who l)).note (World.step who start x l).mem ∧
      R.Safe (fun _ => True) ((World.step who start x l).thread (who l)).prog
        ((World.step who start x l).thread (who l)).note by
    obtain ⟨hinv, hknows, hrest⟩ := hself
    refine ⟨hinv, fun t => ?_, fun t => ?_⟩
    · rcases eq_or_ne t (who l) with rfl | ht
      · exact hknows
      · exact (hothers t ht).1
    · rcases eq_or_ne t (who l) with rfl | ht
      · exact hrest
      · exact (hothers t ht).2
  simp only [World.step]
  cases hprog : (x.thread (who l)).prog with
  | done a =>
    simp only [Function.update_self]
    exact ⟨h.inv, trivial, hstart⟩
  | act f note k =>
    rw [hprog] at hsafe
    simp only [Function.update_self]
    exact hsafe x.mem h.inv (h.knows (who l))
  | index arr i k =>
    rw [hprog] at hsafe
    simp only [Function.update_self]
    exact ⟨h.inv, h.knows (who l), hsafe.2⟩

/-- **The run rule**: safe programs that do not disturb each other stay within the arrays. -/
theorem Sound.run {Fair : I → Prop} (hstart : ∀ l, Fair l → R.Good (start l))
    (h : Sound R x) {ls : List I}
    (hrun : Along (World.step who start) (fun x l => Fair l ∧ Undisturbed who start R x l) x ls) :
    Sound R (runFrom (World.step who start) x ls) :=
  Along.inv (I := Sound R) (fun _ l hx hl => hx.step (hstart l hl.1) hl.2) h hrun

/-! ## A thread alone

The steps of a single thread, one after the other, are its program.
-/

/-- A thread that nobody interrupts does what its program does alone. -/
theorem goesTo_exec (who : I → T) (start : I → Prog M N Arr Unit) (l : I) (p : Prog M N Arr Unit)
    (n : Option N) (x : World T M N Arr) (hx : x.thread (who l) = ⟨n, p⟩) :
    ∃ n', GoesTo (World.step who start) l x
      ⟨(p.exec x.mem).2, Function.update x.thread (who l) ⟨n', .done ()⟩⟩ := by
  induction p generalizing n x with
  | done a =>
    refine ⟨n, 0, ?_⟩
    have hself : Function.update x.thread (who l) ⟨n, .done a⟩ = x.thread := by
      rw [← hx, Function.update_eq_self]
    rw [List.replicate_zero, runFrom_nil, hself]
    rfl
  | act f note k ih =>
    have hstep : World.step who start x l =
        ⟨f x.mem, Function.update x.thread (who l) ⟨note x.mem, k x.mem⟩⟩ := by
      simp only [World.step]
      rw [hx]
    obtain ⟨n', hrest⟩ := ih x.mem (note x.mem)
      ⟨f x.mem, Function.update x.thread (who l) ⟨note x.mem, k x.mem⟩⟩ (Function.update_self ..)
    rw [Function.update_idem] at hrest
    exact ⟨n', .head hstep hrest⟩
  | index arr i k ih =>
    have hstep : World.step who start x l =
        { x with thread := Function.update x.thread (who l) ⟨n, k⟩ } := by
      simp only [World.step]
      rw [hx]
    obtain ⟨n', hrest⟩ := ih n
      { x with thread := Function.update x.thread (who l) ⟨n, k⟩ } (Function.update_self ..)
    rw [Function.update_idem] at hrest
    exact ⟨n', .head hstep hrest⟩

/-- A thread that begins a program and is not interrupted. -/
theorem goesTo_start {a : Unit} (hx : (x.thread (who l)).prog = .done a) :
    ∃ n', GoesTo (World.step who start) l x
      ⟨((start l).exec x.mem).2, Function.update x.thread (who l) ⟨n', .done ()⟩⟩ := by
  have hstep : World.step who start x l =
      { x with thread := Function.update x.thread (who l) ⟨none, start l⟩ } := by
    simp only [World.step]
    rw [hx]
  obtain ⟨n', hrest⟩ := goesTo_exec who start l (start l) none
    { x with thread := Function.update x.thread (who l) ⟨none, start l⟩ }
    (Function.update_self ..)
  rw [Function.update_idem] at hrest
  exact ⟨n', .head hstep hrest⟩

end World

end Fajita
