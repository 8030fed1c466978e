import Fajita.Controller
import Fajita.Wire

/-!
# Faults of the solver's pipes

The loops `from_pipe` and `to_pipe` cope with calls that transfer less than asked for.
The single calls beside them do not, and no return value is looked at.

* `chunkFree_iff` — the decoded values are independent of how the pipes split the
  streams if and only if no single call is split;
* `truncated_harmless_iff` — an answer that ends early changes nothing if and only if
  it ends within the status word and what is left in `value` is not 1.
-/

namespace Fajita.Wire

open Fajita.Reading

/-! ## Split transfers

`read` and `write` may transfer less than they are asked to, in a request and in its answer. The
loops of `to_pipe` and `from_pipe` go on until all is there, but some variables are transferred by a
single call. What is decoded is free of the chunks exactly if none of these calls is split.
-/

/-- A solution of the given sizes, or none. -/
abbrev Complete (shards cores : ℕ) : Type := Option {p : Plan // p.Sized shards cores}

/-- What there is to write of an answer. -/
def Complete.plan {shards cores : ℕ} (a : Complete shards cores) : Option Plan :=
  a.map Subtype.val

/-- Whatever the variables held before, the decoded values are those of full transfers:
for a request written in the chunks `w` and read in the chunks `c`, and an answer
written in the chunks `w'` and read in the chunks `c'`. -/
def ChunkFree (q : Request) (a : Option Plan) (w c w' c' : Chunks) : Prop :=
  (∀ stale, (main c stale ⟨0, send w 0 q.writes⟩).1 =
    (main .full stale ⟨0, send .full 0 q.writes⟩).1) ∧
  ∀ (value : UInt32) (old : Plan), old.Sized q.totalShards.toNat q.totalCores.toNat →
    (runShortSolver c' value q.totalShards.toNat q.totalCores.toNat old
      ⟨0, send w' 0 (answerWrites a)⟩).1 =
    (runShortSolver .full value q.totalShards.toNat q.totalCores.toNat old
      ⟨0, send .full 0 (answerWrites a)⟩).1

/-- If foreign memory turns into the values of the request, nothing was split. -/
theorem full_of_main {q : Request} {w c : Chunks}
    (h : (main c (staleFor q.reads) ⟨0, send w 0 q.writes⟩).1 = .short short q.received) :
    Full w 0 q.writes ∧ Full c 0 q.reads := by
  obtain ⟨hfull, hpre⟩ := (main_exact q c _).only rfl _ h
  have hle := hpre.length_le
  rw [q.flat_reads] at hle
  exact ⟨full_of_send hle, hfull⟩

/-- If foreign contents turn into the solution, nothing was split. -/
theorem full_of_runShortSolver {p old : Plan} {shards cores : ℕ} {value : UInt32}
    (hp : p.Sized shards cores) (hold : old.Sized shards cores) (hforeign : ForeignTo p value old)
    {w c : Chunks}
    (h : (runShortSolver c value shards cores old ⟨0, send w 0 (answerWrites (some p))⟩).1 =
      (true, p)) :
    Full w 0 (answerWrites (some p)) ∧ Full c 0 (answerReads (some p)) := by
  obtain ⟨hfull, hpre⟩ := (runShortSolver_exact hp hold c value).only hforeign _ h
  have hle := hpre.length_le
  rw [flat_answerReads] at hle
  exact ⟨full_of_send hle, hfull⟩

/-- Contents that are foreign to a solution. -/
def foreignPlan (p : Plan) : Plan where
  r := p.r.map fun x => u64.get (foreign (u64.put x))
  A := u32.unpack p.A.length (foreign (u32.pack p.A))
  O := u32.unpack p.O.length (foreign (u32.pack p.O))

theorem unpack_length {α : Type} (C : Codec α) (n : ℕ) (bs : List UInt8) :
    (C.unpack n bs).length = n := by
  induction n generalizing bs with
  | zero => rfl
  | succ n ih => rw [Codec.unpack, List.length_cons, ih]

theorem foreignPlan_sized {p : Plan} {shards cores : ℕ} (hp : p.Sized shards cores) :
    (foreignPlan p).Sized shards cores where
  r := (List.length_map ..).trans hp.r
  A := (unpack_length ..).trans hp.A
  O := (unpack_length ..).trans hp.O

theorem foreignTo_foreignPlan (p : Plan) :
    ForeignTo p (u32.get (foreign (u32.put 1))) (foreignPlan p) where
  value := u32.put_get _ rfl
  r := by
    rw [foreignPlan, List.map_map]
    exact List.map_congr_left fun x _ => u64.put_get _ ((foreign_length _).trans (u64.put_length x))
  A := u32.pack_unpack _ _ ((foreign_length _).trans (u32.pack_length _))
  O := u32.pack_unpack _ _ ((foreign_length _).trans (u32.pack_length _))

/-- The first byte of a status that is not 1 is enough to tell it from 1. -/
theorem runShortSolver_failed (w c : Chunks) (value : UInt32) (shards cores : ℕ) (old : Plan) :
    (runShortSolver c value shards cores old ⟨0, send w 0 (answerWrites none)⟩).1 =
      (false, old) := by
  have hpos := w.pos 0 0 4 (by omega)
  obtain ⟨m, hm⟩ : ∃ m, w.size 0 0 4 = m + 1 := ⟨w.size 0 0 4 - 1, by omega⟩
  have hsend : send w 0 (answerWrites none) = 0 :: List.take m [0, 0, 0] := by
    change List.take (w.size 0 0 4) [0, 0, 0, 0] ++ [] = _
    rw [List.append_nil, hm]
    rfl
  obtain ⟨n, -, -, heq, -, hn⟩ := readItem_eq c true (u32.put value)
    ⟨0, send w 0 (answerWrites none)⟩
  have hnpos : 0 < n := hn (by rw [u32.put_length]; decide) (by rw [hsend]; exact Nat.succ_pos _)
  obtain ⟨j, rfl⟩ : ∃ j, n = j + 1 := ⟨n - 1, by omega⟩
  have hne : (word u32 c (u32.put value) ⟨0, send w 0 (answerWrites none)⟩).1 ≠ 1 := by
    intro hone
    have hlen := readItem_length c true (u32.put value) ⟨0, send w 0 (answerWrites none)⟩
    have hbytes := (u32.get_inj (hlen.trans (u32.put_length value)) (u32.put_length 1)).mp
      (hone.trans (u32.get_put 1).symm)
    rw [heq, hsend] at hbytes
    exact absurd (List.cons.inj hbytes).1 (by decide)
  rw [runShortSolver, bind_apply, if_neg hne]
  rfl

/-- **Chunking.** What is decoded of a request and of its answer does not depend on how
the pipes split the streams if and only if none of the single calls is split; of the
answers, one without a solution is always understood. -/
theorem chunkFree_iff (q : Request) (a : Complete q.totalShards.toNat q.totalCores.toNat)
    (w c w' c' : Chunks) :
    ChunkFree q a.plan w c w' c' ↔
      (Full w 0 q.writes ∧ Full c 0 q.reads) ∧
      (a.isSome → Full w' 0 (answerWrites a.plan) ∧ Full c' 0 (answerReads a.plan)) := by
  refine and_congr ⟨fun h => ?_, fun h stale => ?_⟩ ?_
  · refine full_of_main ((h _).trans ?_)
    exact main_full q (full_full _ 0) (full_full _ 0) _
  · rw [main_full q h.1 h.2, main_full q (full_full _ 0) (full_full _ 0)]
  · cases a with
    | none =>
      refine ⟨fun _ h => Bool.noConfusion h, fun _ value old _ => ?_⟩
      exact (runShortSolver_failed ..).trans (runShortSolver_failed ..).symm
    | some p =>
      obtain ⟨p, hp⟩ := p
      constructor
      · intro h _
        have hold := foreignPlan_sized hp
        refine full_of_runShortSolver hp hold (foreignTo_foreignPlan p) ((h _ _ hold).trans ?_)
        exact runShortSolver_full hp hold (full_full _ 0) (full_full _ 0) _
      · intro h value old hold
        obtain ⟨hw, hc⟩ := h rfl
        exact (runShortSolver_full hp hold hw hc value).trans
          (runShortSolver_full hp hold (full_full _ 0) (full_full _ 0) value).symm

namespace Small

/-- The pipe splits the first double of an answer: the status shifts the doubles against
the pages of the pipe. -/
def split : Chunks where
  size k i n := if k = 1 ∧ i = 0 then min 4 n else n
  pos k i n h := by split <;> omega
  le k i n := by split <;> omega

/-- The solution that offloads half of the shard. -/
def half : Plan := ⟨[4602678819172646912], [1], [0]⟩

/-- **A split double.** The controller stores the first half of the share, and everything
behind it is shifted. -/
theorem half_not_chunkFree :
    ¬ ChunkFree request (some half) .full .full .full split := by
  intro h
  have hread := h.2 0 ⟨[0], [1], [0]⟩ ⟨rfl, rfl, rfl⟩
  revert hread
  decide +kernel

end Small

/-! ## Truncated answers -/

/-- What the epoch gets from `run_short_solver`; `val` is the value of a bit pattern. -/
def outcome {D : Type} (val : UInt64 → D) (cores : ℕ) (out : Bool × Plan) : Option (Answer D) :=
  if out.1 then
    some
      { r := fun s => val (out.2.r.getD s 0)
        A := fun s w => (out.2.A.getD (s * cores + w) 0).toNat
        O := fun e w => (out.2.O.getD (e * cores + w) 0).toNat }
  else none

/-- `run_short_solver` returned false and changed nothing, so the epoch goes on as without
a solver. -/
structure Harmless (cores : ℕ) (out : Bool × Plan) (old : Plan) : Prop where
  /-- the return value -/
  failed : out.1 = false
  /-- `r_new`, `newA` and `newO` -/
  unchanged : out.2 = old
  /-- the update functions are not called -/
  noop : ∀ {D : Type} [Double D] (val : UInt64 → D) (cfg : Cfg) (vec : ℕ → List FlowKey)
    (σ : Sys D), Controller.updateShortEpoch cfg (outcome val cores out) vec σ =
      Controller.updateShortEpoch cfg none vec σ

theorem harmless_iff {cores : ℕ} {out : Bool × Plan} {old : Plan} :
    Harmless cores out old ↔ out = (false, old) := by
  constructor
  · intro h
    exact Prod.ext h.failed h.unchanged
  · intro h
    subst h
    exact ⟨rfl, rfl, fun _ _ _ _ => rfl⟩

/-- The update is harmless unless `value` becomes 1. -/
theorem harmless_runShortSolver {c : Chunks} {value : UInt32} {shards cores : ℕ} {old : Plan}
    {st : Input} :
    Harmless cores (runShortSolver c value shards cores old st).1 old ↔
      (word u32 c (u32.put value) st).1 ≠ 1 := by
  rw [harmless_iff, runShortSolver, bind_apply]
  by_cases hone : (word u32 c (u32.put value) st).1 = 1
  · rw [if_pos hone]
    exact ⟨fun h => absurd (congrArg Prod.fst h) Bool.noConfusion, fun h => absurd hone h⟩
  · rw [if_neg hone]
    exact ⟨fun _ => hone, fun _ => rfl⟩

/-- The first bytes of the answer and the last bytes of what `value` held make up 1. -/
theorem status_eq_one (value : UInt32) {stream : List UInt8} (hlen : stream.length ≤ 4) :
    (word u32 .full (u32.put value) ⟨0, stream⟩).1 = 1 ↔
      stream = (u32.put 1).take stream.length ∧
        (u32.put value).drop stream.length = (u32.put 1).drop stream.length := by
  have hput : (u32.put value).length = 4 := u32.put_length value
  have hone : (u32.put 1).length = 4 := u32.put_length 1
  have hread : (word u32 .full (u32.put value) ⟨0, stream⟩).1 =
      u32.get (stream ++ (u32.put value).drop stream.length) := by
    refine congrArg u32.get ((take_min_append_drop_min ..).trans ?_)
    rw [hput, List.take_of_length_le hlen]
  have hbytes : (stream ++ (u32.put value).drop stream.length).length = 4 := by
    rw [List.length_append, List.length_drop, hput]
    omega
  rw [hread, ← u32.get_put 1, u32.get_inj hbytes hone, u32.get_put]
  conv_lhs => rhs; rw [← List.take_append_drop stream.length (u32.put 1)]
  refine ⟨fun h => List.append_inj h ?_, fun h => by rw [← h.1, h.2]⟩
  rw [List.length_take, hone]
  omega

/-- **Truncation.** An answer that ends after `k` bytes changes nothing if and only if it
ends within the status word, and its bytes and those `value` held before are not together
the word 1. -/
theorem truncated_harmless_iff {shards cores : ℕ} (a : Complete shards cores)
    (k : Fin (flat (answerWrites a.plan)).length) (value : UInt32) (old : Plan) :
    Harmless cores (runShortSolver .full value shards cores old
        ⟨0, (flat (answerWrites a.plan)).take k⟩).1 old ↔
      k.val < 4 ∧ ¬ ((flat (answerWrites a.plan)).take k = (u32.put 1).take k ∧
        (u32.put value).drop k = (u32.put 1).drop k) := by
  have htake : ((flat (answerWrites a.plan)).take k).length = k := by
    rw [List.length_take]
    omega
  rw [harmless_runShortSolver]
  by_cases hk : k.val < 4
  · have hone := status_eq_one value (htake.trans_le (by omega))
    rw [htake] at hone
    rw [ne_eq, hone]
    exact (and_iff_right hk).symm
  · refine ⟨fun h => absurd ?_ h, fun h => absurd h.1 hk⟩
    cases a with
    | none => exact absurd (show k.val < 4 from k.isLt) hk
    | some p =>
      have hput : (u32.put value).length = 4 := u32.put_length value
      have hwhole : flat (answerWrites (Complete.plan (some p))) =
          u32.put 1 ++ flat (answerWrites (some p.val)).tail := rfl
      have hstatus :
          ((flat (answerWrites (Complete.plan (some p)))).take k).take 4 = u32.put 1 := by
        rw [List.take_take, Nat.min_eq_left (by omega), hwhole]
        exact List.take_left' (u32.put_length 1)
      refine (congrArg u32.get ((take_min_append_drop_min ..).trans ?_)).trans (u32.get_put 1)
      rw [hput, hstatus, htake, List.drop_eq_nil_of_le (by omega), List.append_nil]

namespace Small

/-- **A truncated answer.** It ends after the share of the only shard: `run_short_solver`
returns true and has overwritten the share. -/
theorem half_not_harmless :
    ¬ Harmless 1 (runShortSolver .full 0 1 1 ⟨[0], [1], [0]⟩
      ⟨0, (flat (answerWrites (some half))).take 12⟩).1 ⟨[0], [1], [0]⟩ := by
  intro h
  have hfailed := h.failed
  revert hfailed
  decide +kernel

end Small

end Fajita.Wire
