import Fajita.Pipe

/-!
# The solver's pipes

`run_short_solver` writes a request into one pipe, which the solver's `main` and
`short_solver` read, and reads an answer from another, which `short_solver` writes.
There are no tags: what a variable means is decided by its place in two sequences of
calls, written by hand in two programs. `Request.writes` and `shortSolver` are these
sequences for the request, `answerWrites` and `runShortSolver` for the answer.

A `double` is carried as its bit pattern. After reading, the solver multiplies the
service times and the bounds on the waits by `1e9`, both kinds alike.

* `main_exact`, `runShortSolver_exact` — what the readers read;
* `codecAgrees_iff` — the two programs agree on every field and its role if and only
  if the controller has measured the same time for both kinds of packets: it sends
  `Tr` before `Tp`, and the solver uses the first with the priority coefficients.
-/

namespace Fajita.Wire

open Fajita.Reading

/-! ## Requests -/

/-- Shares and matrices, as the arrays they are kept in. -/
structure Plan where
  /-- the share of each shard that is offloaded -/
  r : List UInt64
  /-- the assignment of shards to working cores, row by row -/
  A : List UInt32
  /-- the relation between working and offloading cores, row by row -/
  O : List UInt32
  deriving DecidableEq

/-- The arrays have the sizes they were allocated with. -/
structure Plan.Sized (p : Plan) (shards cores : ℕ) : Prop where
  /-- an entry for each shard -/
  r : p.r.length = shards
  /-- a row for each shard -/
  A : p.A.length = shards * cores
  /-- a row for each core -/
  O : p.O.length = cores * cores

/-- What `run_short_solver` writes about the controller. -/
structure Request extends Plan where
  /-- working cores -/
  W : UInt32
  /-- offloading cores -/
  E : UInt32
  /-- `total_cores` -/
  totalCores : UInt32
  /-- `total_shards` -/
  totalShards : UInt32
  /-- variation of the arrivals of priority packets -/
  Cap : UInt64
  /-- variation of the service of priority packets -/
  Csp : UInt64
  /-- bound on the wait of priority packets -/
  SLOp : UInt64
  /-- variation of the arrivals of regular packets -/
  Car : UInt64
  /-- variation of the service of regular packets -/
  Csr : UInt64
  /-- bound on the wait of regular packets -/
  SLOr : UInt64
  /-- service time of regular packets -/
  Tr : UInt64
  /-- service time of priority packets -/
  Tp : UInt64
  /-- load of each shard -/
  V : List UInt64
  /-- a load for each shard -/
  V_length : V.length = totalShards.toNat
  /-- the arrays are as large as they were allocated -/
  sized : toPlan.Sized totalShards.toNat totalCores.toNat

/-- `SHORT` -/
def short : UInt32 := 1

/-- A single `write` of a word. -/
def writeWord {α : Type} (C : Codec α) (x : α) : Item := ⟨true, C.put x⟩

/-- `to_pipe` of an array. -/
def writeArray {α : Type} (C : Codec α) (xs : List α) : Item := ⟨false, C.pack xs⟩

/-- The calls by which `run_short_solver` writes a request. -/
def Request.writes (q : Request) : List Item :=
  [writeWord u32 short, writeWord u32 q.W, writeWord u32 q.E, writeWord u32 q.totalCores,
    writeWord u32 q.totalShards,
    writeWord u64 q.Cap, writeWord u64 q.Csp, writeWord u64 q.SLOp,
    writeWord u64 q.Car, writeWord u64 q.Csr, writeWord u64 q.SLOr,
    writeWord u64 q.Tr, writeWord u64 q.Tp] ++
  (q.V.map (writeWord u64) ++ q.r.map (writeWord u64) ++
    [writeArray u32 q.A, writeArray u32 q.O])

/-! ## The solver -/

/-- The local variables of `short_solver` after it has read a request. -/
structure Received where
  /-- `W` -/
  W : UInt32
  /-- `E` -/
  E : UInt32
  /-- `MAXCORES` -/
  maxCores : UInt32
  /-- `SHARDS` -/
  shards : UInt32
  /-- `Cap` -/
  Cap : UInt64
  /-- `Csp` -/
  Csp : UInt64
  /-- `SLOp` -/
  SLOp : UInt64
  /-- `Car` -/
  Car : UInt64
  /-- `Csr` -/
  Csr : UInt64
  /-- `SLOr` -/
  SLOr : UInt64
  /-- `T` -/
  T : UInt64
  /-- `Te` -/
  Te : UInt64
  /-- `V` -/
  V : List UInt64
  /-- `rold` -/
  rold : List UInt64
  /-- `Aold` -/
  Aold : List UInt32
  /-- `Oold` -/
  Oold : List UInt32

/-- The variables that meet in a bound on the mean wait. -/
structure Wait where
  /-- variation of the arrivals -/
  Ca : UInt64
  /-- variation of the service -/
  Cs : UInt64
  /-- the service time -/
  T : UInt64
  /-- the bound -/
  SLO : UInt64
  deriving DecidableEq

namespace Received

/-- `avg_w == vars_w * ((Cap*Cap + Csp*Csp)/2) * T` and `avg_w <= SLOp` -/
def workingCore (d : Received) : Wait := ⟨d.Cap, d.Csp, d.T, d.SLOp⟩

/-- `avg_e == vars_e * ((Car*Car + Csr*Csr)/2) * Te` and `avg_e <= SLOr` -/
def offloadingCore (d : Received) : Wait := ⟨d.Car, d.Csr, d.Te, d.SLOr⟩

end Received

/-- What `n` bytes of the local variable `k` hold before anything is stored there. -/
def uninit (stale : ℕ → ℕ → UInt8) (k n : ℕ) : List UInt8 := (List.range n).map (stale k)

/-- A single `read` of the local variable `k`. -/
def readLocal {α : Type} (C : Codec α) (c : Chunks) (stale : ℕ → ℕ → UInt8) (k : ℕ) : Reading α :=
  word C c (uninit stale k C.width)

/-- `from_pipe` into the local array `k`. -/
def readLocals {α : Type} (C : Codec α) (c : Chunks) (stale : ℕ → ℕ → UInt8) (k n : ℕ) :
    Reading (List α) :=
  array C c n (uninit stale k (n * C.width))

/-- The calls by which `short_solver` reads a request. -/
def shortSolver (c : Chunks) (stale : ℕ → ℕ → UInt8) : Reading Received := do
  let W ← readLocal u32 c stale 1
  let E ← readLocal u32 c stale 2
  let maxCores ← readLocal u32 c stale 3
  let shards ← readLocal u32 c stale 4
  let Cap ← readLocal u64 c stale 5
  let Csp ← readLocal u64 c stale 6
  let SLOp ← readLocal u64 c stale 7
  let Car ← readLocal u64 c stale 8
  let Csr ← readLocal u64 c stale 9
  let SLOr ← readLocal u64 c stale 10
  let T ← readLocal u64 c stale 11
  let Te ← readLocal u64 c stale 12
  let V ← readLocals u64 c stale 13 shards.toNat
  let rold ← readLocals u64 c stale 14 shards.toNat
  let Aold ← readLocals u32 c stale 15 (shards.toNat * maxCores.toNat)
  let Oold ← readLocals u32 c stale 16 (maxCores.toNat * maxCores.toNat)
  pure ⟨W, E, maxCores, shards, Cap, Csp, SLOp, Car, Csr, SLOr, T, Te, V, rold, Aold, Oold⟩

/-- Which solver `main` calls, with the mode it has read. -/
inductive Served where
  /-- `long_solver` -/
  | long (mode : UInt32)
  /-- `short_solver`, and what it reads -/
  | short (mode : UInt32) (d : Received)

/-- An iteration of `main`. -/
def main (c : Chunks) (stale : ℕ → ℕ → UInt8) : Reading Served := do
  let mode ← readLocal u32 c stale 0
  if mode = 0 then pure (.long mode)
  else do
    let d ← shortSolver c stale
    pure (.short mode d)

/-! ## Answers -/

/-- The calls by which `short_solver` writes its answer: a solution, or none. -/
def answerWrites : Option Plan → List Item
  | some p => [writeWord u32 1, writeArray u64 p.r, writeArray u32 p.A, writeArray u32 p.O]
  | none => [writeWord u32 0]

/-- The calls by which `run_short_solver` reads an answer: its return value, and `r_new`,
`newA` and `newO`, which held `old`. `value` is what the uninitialised variable of that
name happened to hold. -/
def runShortSolver (c : Chunks) (value : UInt32) (shards cores : ℕ) (old : Plan) :
    Reading (Bool × Plan) := do
  let value ← word u32 c (u32.put value)
  if value = 1 then do
    let r ← each u64 c old.r
    let A ← array u32 c (shards * cores) (u32.pack old.A)
    let O ← array u32 c (cores * cores) (u32.pack old.O)
    pure (true, ⟨r, A, O⟩)
  else pure (false, old)

/-! ## What the readers read

For each variable that is read, the bytes that the other side has written for it. If the two lists
are the same bytes, every variable gets its own value.
-/

/-- What `short_solver` makes of a request. -/
def Request.received (q : Request) : Received :=
  ⟨q.W, q.E, q.totalCores, q.totalShards, q.Cap, q.Csp, q.SLOp, q.Car, q.Csr, q.SLOr, q.Tr, q.Tp,
    q.V, q.r, q.A, q.O⟩

/-- The variables of the solver, with the bytes a request has for them. -/
def Request.reads (q : Request) : List Item :=
  [writeWord u32 short, writeWord u32 q.W, writeWord u32 q.E, writeWord u32 q.totalCores,
    writeWord u32 q.totalShards,
    writeWord u64 q.Cap, writeWord u64 q.Csp, writeWord u64 q.SLOp,
    writeWord u64 q.Car, writeWord u64 q.Csr, writeWord u64 q.SLOr,
    writeWord u64 q.Tr, writeWord u64 q.Tp,
    writeArray u64 q.V, writeArray u64 q.r, writeArray u32 q.A, writeArray u32 q.O]

/-- Words one by one are the bytes of the array. -/
theorem flat_map_writeWord {α : Type} (C : Codec α) (xs : List α) :
    flat (xs.map (writeWord C)) = C.pack xs := by
  induction xs with
  | nil => rfl
  | cons x xs ih =>
    rw [List.map_cons, flat_cons, ih, C.pack_cons]
    rfl

/-- The solver's variables take up the bytes of the request. -/
theorem Request.flat_reads (q : Request) : flat q.reads = flat q.writes := by
  rw [Request.writes, flat_append, flat_append, flat_append, flat_map_writeWord,
    flat_map_writeWord]
  simp only [Request.reads, flat_cons, flat_nil, List.append_assoc, List.append_nil]
  rfl

/-- Memory that is foreign to some variables. -/
def staleFor (its : List Item) (k i : ℕ) : UInt8 := ((its.getD k ⟨true, []⟩).bytes.getD i 0) + 1

theorem uninit_staleFor {its : List Item} {k n : ℕ} {it : Item} (hk : its[k]? = some it)
    (hn : it.bytes.length = n) : uninit (staleFor its) k n = foreign it.bytes := by
  apply List.ext_getElem
  · rw [uninit, List.length_map, List.length_range, foreign_length, hn]
  · intro i h h'
    rw [foreign_length] at h'
    simp only [uninit, foreign, staleFor, List.getElem_map, List.getElem_range,
      List.getD_eq_getElem?_getD, hk, Option.getD_some, List.getElem?_eq_getElem h']

/-- A word is read into a local variable as it was written. -/
theorem readLocal_exact {α : Type} {C : Codec α} {c : Chunks} {stale : ℕ → ℕ → UInt8}
    {its : List Item} {k : ℕ} (x : α) (hk : its[k]? = some (writeWord C x)) :
    Exact (stale = staleFor its) c k (readLocal C c stale k) x [writeWord C x] := by
  refine Exact.word x ?_ fun h => ?_
  · rw [uninit, List.length_map, List.length_range]
  · rw [h]
    exact uninit_staleFor hk (C.put_length x)

/-- The words of an array are read one by one as they were written. -/
theorem readLocals_exact {α : Type} {C : Codec α} {c : Chunks} {stale : ℕ → ℕ → UInt8}
    {its : List Item} {k n : ℕ} (xs : List α) (hk : its[k]? = some (writeArray C xs))
    (hn : xs.length = n) :
    Exact (stale = staleFor its) c k (readLocals C c stale k n) xs [writeArray C xs] := by
  refine Exact.array xs hn ?_ fun h => ?_
  · rw [uninit, List.length_map, List.length_range]
  · rw [h]
    refine uninit_staleFor hk ?_
    rw [writeArray, C.pack_length, hn]

/-- **What `short_solver` reads of a request.** -/
theorem shortSolver_exact (q : Request) (c : Chunks) (stale : ℕ → ℕ → UInt8) :
    Exact (stale = staleFor q.reads) c 1 (shortSolver c stale) q.received q.reads.tail := by
  refine (readLocal_exact q.W rfl).bind ?_ fun _ h => congrArg Received.W h
  refine (readLocal_exact q.E rfl).bind ?_ fun _ h => congrArg Received.E h
  refine (readLocal_exact q.totalCores rfl).bind ?_ fun _ h => congrArg Received.maxCores h
  refine (readLocal_exact q.totalShards rfl).bind ?_ fun _ h => congrArg Received.shards h
  refine (readLocal_exact q.Cap rfl).bind ?_ fun _ h => congrArg Received.Cap h
  refine (readLocal_exact q.Csp rfl).bind ?_ fun _ h => congrArg Received.Csp h
  refine (readLocal_exact q.SLOp rfl).bind ?_ fun _ h => congrArg Received.SLOp h
  refine (readLocal_exact q.Car rfl).bind ?_ fun _ h => congrArg Received.Car h
  refine (readLocal_exact q.Csr rfl).bind ?_ fun _ h => congrArg Received.Csr h
  refine (readLocal_exact q.SLOr rfl).bind ?_ fun _ h => congrArg Received.SLOr h
  refine (readLocal_exact q.Tr rfl).bind ?_ fun _ h => congrArg Received.T h
  refine (readLocal_exact q.Tp rfl).bind ?_ fun _ h => congrArg Received.Te h
  refine (readLocals_exact q.V rfl q.V_length).bind ?_ fun _ h => congrArg Received.V h
  refine (readLocals_exact q.r rfl q.sized.r).bind ?_ fun _ h => congrArg Received.rold h
  refine (readLocals_exact q.A rfl q.sized.A).bind ?_ fun _ h => congrArg Received.Aold h
  exact (readLocals_exact q.O rfl q.sized.O).map _ fun _ h => congrArg Received.Oold h

/-- What `main` reads of a request. -/
theorem main_exact (q : Request) (c : Chunks) (stale : ℕ → ℕ → UInt8) :
    Exact (stale = staleFor q.reads) c 0 (main c stale) (.short short q.received) q.reads := by
  refine (readLocal_exact short rfl).bind ?_ fun st h => ?_
  · exact (shortSolver_exact q c stale).map (Served.short short) fun _ h => (Served.short.inj h).2
  · generalize hmode : (readLocal u32 c stale 0 st).1 = mode
    simp only [bind_apply, hmode] at h
    split at h
    · cases h
    · exact (Served.short.inj h).1

/-- The variables of the controller, with the bytes an answer has for them. -/
def answerReads : Option Plan → List Item
  | some p =>
    writeWord u32 1 :: (p.r.map (writeWord u64) ++ [writeArray u32 p.A, writeArray u32 p.O])
  | none => [writeWord u32 0]

/-- The bytes that are read of an answer are those that were written. -/
theorem flat_answerReads (a : Option Plan) : flat (answerReads a) = flat (answerWrites a) := by
  cases a with
  | some p =>
    rw [answerReads, flat_cons, flat_append, flat_map_writeWord]
    rfl
  | none => rfl

/-- What the controller's variables held is foreign to a solution. -/
structure ForeignTo (p : Plan) (value : UInt32) (old : Plan) : Prop where
  /-- `value` -/
  value : u32.put value = foreign (u32.put 1)
  /-- `r_new` -/
  r : old.r.map u64.put = p.r.map fun x => foreign (u64.put x)
  /-- `newA` -/
  A : u32.pack old.A = foreign (u32.pack p.A)
  /-- `newO` -/
  O : u32.pack old.O = foreign (u32.pack p.O)

/-- **What `run_short_solver` reads of a solution.** -/
theorem runShortSolver_exact {p old : Plan} {shards cores : ℕ} (hp : p.Sized shards cores)
    (hold : old.Sized shards cores) (c : Chunks) (value : UInt32) :
    Exact (ForeignTo p value old) c 0 (runShortSolver c value shards cores old) (true, p)
      (answerReads (some p)) := by
  refine (Exact.word 1 (u32.put_length value) ForeignTo.value).bind ?_ fun st h => ?_
  · refine (Exact.each p.r (hold.r.trans hp.r.symm) ForeignTo.r).bind ?_
      fun _ h => congrArg (fun y => y.2.r) h
    have hlenA : (u32.pack old.A).length = shards * cores * u32.width := by
      rw [u32.pack_length, hold.A]
    have hlenO : (u32.pack old.O).length = cores * cores * u32.width := by
      rw [u32.pack_length, hold.O]
    refine (Exact.array p.A hp.A hlenA ForeignTo.A).bind ?_ fun _ h => congrArg (fun y => y.2.A) h
    exact (Exact.array p.O hp.O hlenO ForeignTo.O).map (fun O => (true, (⟨p.r, p.A, O⟩ : Plan)))
      fun _ h => congrArg (fun y => y.2.O) h
  · -- a first word other than 1 returns at once, and then nothing was read
    generalize hvalue : (word u32 c (u32.put value) st).1 = v
    simp only [bind_apply, hvalue] at h
    split at h
    · next hone => exact hone
    · cases h

/-! ## Agreement of the two programs -/

/-- Every field of the request arrives under its role. -/
structure Agrees (q : Request) (d : Received) : Prop where
  /-- the sizes -/
  sizes : d.W = q.W ∧ d.E = q.E ∧ d.maxCores = q.totalCores ∧ d.shards = q.totalShards
  /-- the loads -/
  V : d.V = q.V
  /-- the shares -/
  r : d.rold = q.r
  /-- the assignment -/
  A : d.Aold = q.A
  /-- the relation -/
  O : d.Oold = q.O
  /-- the bound on a working core is about priority packets -/
  working : d.workingCore = ⟨q.Cap, q.Csp, q.Tp, q.SLOp⟩
  /-- the bound on an offloading core is about regular packets -/
  offloading : d.offloadingCore = ⟨q.Car, q.Csr, q.Tr, q.SLOr⟩

/-- The two programs agree on a request, and on all answers of its sizes: whatever the
variables held before, the solver gets mode, fields and roles of the request, and the
controller gets the solution. -/
def CodecAgrees (q : Request) : Prop :=
  (∀ stale, ∃ d, (main .full stale ⟨0, send .full 0 q.writes⟩).1 = .short short d ∧ Agrees q d) ∧
  ∀ (p old : Plan) (value : UInt32), p.Sized q.totalShards.toNat q.totalCores.toNat →
    old.Sized q.totalShards.toNat q.totalCores.toNat →
    (runShortSolver .full value q.totalShards.toNat q.totalCores.toNat old
      ⟨0, send .full 0 (answerWrites (some p))⟩).1 = (true, p)

/-- With full transfers the solver gets the request that was written. -/
theorem main_full (q : Request) {w c : Chunks} (hw : Full w 0 q.writes) (hc : Full c 0 q.reads)
    (stale : ℕ → ℕ → UInt8) :
    (main c stale ⟨0, send w 0 q.writes⟩).1 = .short short q.received := by
  have h := (main_exact q c stale).reads [] hc
  rw [List.append_nil] at h
  rw [send_of_full hw, ← q.flat_reads, h]

/-- With full transfers the controller gets the answer that was written. -/
theorem runShortSolver_full {p old : Plan} {shards cores : ℕ} (hp : p.Sized shards cores)
    (hold : old.Sized shards cores) {w c : Chunks} (hw : Full w 0 (answerWrites (some p)))
    (hc : Full c 0 (answerReads (some p))) (value : UInt32) :
    (runShortSolver c value shards cores old ⟨0, send w 0 (answerWrites (some p))⟩).1 =
      (true, p) := by
  have h := (runShortSolver_exact hp hold c value).reads [] hc
  rw [List.append_nil] at h
  rw [send_of_full hw, ← flat_answerReads, h]

/-- **The codec agrees when both kinds of packets take the same time**, and in no other
case: the solver takes `Tr` for the service time on working cores and `Tp` for that on
offloading cores. -/
theorem codecAgrees_iff (q : Request) : CodecAgrees q ↔ q.Tr = q.Tp := by
  have hmain := main_full q (full_full q.writes 0) (full_full q.reads 0)
  constructor
  · intro h
    obtain ⟨d, hd, hagrees⟩ := h.1 fun _ _ => 0
    rw [hmain] at hd
    obtain rfl := (Served.short.inj hd).2
    exact congrArg Wait.T hagrees.working
  · intro h
    refine ⟨fun stale => ⟨q.received, hmain stale, ?_⟩, fun p old value hp hold => ?_⟩
    · exact
        { sizes := ⟨rfl, rfl, rfl, rfl⟩
          V := rfl
          r := rfl
          A := rfl
          O := rfl
          working := by rw [← h]; rfl
          offloading := by rw [h]; rfl }
    · exact runShortSolver_full hp hold (full_full _ 0) (full_full _ 0) value

namespace Small

/-- The request of a controller with one working core, no offloading core and one shard,
which takes a microsecond for a regular packet and two for a priority packet. -/
def request : Request where
  W := 1
  E := 0
  totalCores := 1
  totalShards := 1
  Cap := 4607182418800017408
  Csp := 4607182418800017408
  SLOp := 4621819117588971520
  Car := 4607182418800017408
  Csr := 4607182418800017408
  SLOr := 4621819117588971520
  Tr := 4517329193108106637
  Tp := 4521832792735477133
  V := [4591870180066957722]
  r := [0]
  A := [1]
  O := [0]
  V_length := rfl
  sized := ⟨rfl, rfl, rfl⟩

/-- **Swapped service times.** The solver bounds the wait on the working core with the
time of regular packets. -/
theorem request_not_codecAgrees : ¬ CodecAgrees request := by
  intro h
  obtain ⟨d, hd, hagrees⟩ := h.1 fun _ _ => 0
  rw [main_full request (full_full _ 0) (full_full _ 0)] at hd
  obtain rfl := (Served.short.inj hd).2
  exact absurd (congrArg Wait.T hagrees.working) (by decide)

end Small

end Fajita.Wire
