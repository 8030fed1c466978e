import Fajita.Headers

/-!
# The payload scanner of `DyIDS`

`DyIDS::lex` is an automaton of labels and `goto`s over a cursor, with a marker to fall back
to when an attempt fails. It has no length argument: a zero byte ends the scan. The model
keeps the labels, one round of the loop from each label to the next, so the bytes `lex` reads
are the bytes the rounds read.

* `lex_correct` — over a text that ends with its first zero byte, `lex` comes to an end,
  reads nothing behind the zero, and returns 1 exactly when the bytes 1 and 3 stand next to
  each other with a byte 11 somewhere behind them.
* `lex_running` — a scan that has not yet read a zero byte has not returned.
* `updateState_inside_iff` — so `UpdateState` stays inside a TCP packet exactly when the
  payload has a zero byte at or behind the configured offset. The test `if(payload)` is of
  a pointer into the packet, and always succeeds.
-/

namespace Fajita

namespace DyIDS

open Reads

/-! ## The automaton -/

/-- The labels of `lex`, and having returned. -/
inductive Label
  | firstGroup | yy2 | yy4 | yy5 | yy6 | yy7 | yy8 | yy9 | yy10 | yy12 | yy13 | yy15
  | returned (ret : ℕ)
  deriving DecidableEq

/-- The locals of `lex`. -/
structure Scan where
  /-- the label the control is at -/
  label : Label
  /-- `YYCURSOR` -/
  cursor : ℕ
  /-- `YYMARKER` -/
  marker : ℕ
  /-- `yyaccept` -/
  yyaccept : ℕ
  deriving DecidableEq

/-- `switch (yych)`, with the labels its cases go to. -/
def switch (yych : UInt8) : List (UInt8 × Label) → Label → Label
  | [], default => default
  | (c, l) :: cases, default => if yych = c then l else switch yych cases default

namespace Scan

/-- `goto` -/
def goto (s : Scan) (l : Label) : Scan := { s with label := l }

/-- `yych = *++YYCURSOR; switch (yych)` -/
def advance (s : Scan) (cases : List (UInt8 × Label)) (default : Label) : Load Scan := do
  let yych ← read (s.cursor + 1)
  return { s with cursor := s.cursor + 1, label := switch yych cases default }

/-- `yych = *(YYMARKER = ++YYCURSOR); switch (yych)` -/
def mark (s : Scan) (cases : List (UInt8 × Label)) (default : Label) : Load Scan := do
  let yych ← read (s.cursor + 1)
  return { s with
    cursor := s.cursor + 1
    marker := s.cursor + 1
    label := switch yych cases default }

/-- From one label to the next. -/
def step (s : Scan) : Load Scan :=
  match s.label with
  | .firstGroup => do
    let yych ← read s.cursor
    return { s with
      yyaccept := 0
      label := switch yych [(0x00, .yy2), (0x01, .yy4)] .yy6 }
  | .yy2 => return { s with cursor := s.cursor + 1, label := .returned 0 }
  | .yy4 => { s with yyaccept := 0 }.mark [(0x00, .yy5), (0x01, .yy7), (0x03, .yy10)] .yy9
  | .yy5 => return s.goto .firstGroup
  | .yy6 => { s with yyaccept := 0 }.mark [(0x00, .yy5), (0x01, .yy7)] .yy9
  | .yy7 => s.advance [(0x01, .yy12), (0x03, .yy10)] .yy8
  | .yy8 => return { s with
      cursor := s.marker
      label := if s.yyaccept = 0 then .yy5 else .yy15 }
  | .yy9 => s.advance [(0x01, .yy12)] .yy8
  | .yy10 => s.advance [(0x00, .yy8), (0x0b, .yy13)] .yy10
  | .yy12 => s.advance [(0x03, .yy10)] .yy8
  | .yy13 => { s with yyaccept := 1 }.mark [(0x00, .yy15), (0x0b, .yy13)] .yy10
  | .yy15 => return s.goto (.returned 1)
  | .returned _ => return s

end Scan

/-- `lex(p)` on entry; `YYMARKER` holds whatever was there. -/
def lex (p marker : ℕ) : Scan := ⟨.firstGroup, p, marker, 0⟩

example : ((iterate Scan.step 20 (lex 0 0)).value fun a => [7, 1, 3, 5, 11, 2, 0].getD a 0).label =
    .returned 1 := by decide

/-! ## What a round does

One lemma for each kind of round: which state it leads to and which bytes it reads.
-/

section Rounds

variable {mem : ℕ → UInt8} {s : Scan} {cases : List (UInt8 × Label)} {default : Label}

@[simp] theorem Scan.value_advance :
    (s.advance cases default).value mem =
      { s with cursor := s.cursor + 1, label := switch (mem (s.cursor + 1)) cases default } := by
  rw [advance, value_bind, value_read, value_pure]

@[simp] theorem Scan.addrs_advance :
    (s.advance cases default).addrs mem = [s.cursor + 1] := by
  rw [advance, addrs_bind, addrs_read, addrs_pure, List.append_nil]

@[simp] theorem Scan.value_mark :
    (s.mark cases default).value mem =
      { s with
        cursor := s.cursor + 1
        marker := s.cursor + 1
        label := switch (mem (s.cursor + 1)) cases default } := by
  rw [mark, value_bind, value_read, value_pure]

@[simp] theorem Scan.addrs_mark :
    (s.mark cases default).addrs mem = [s.cursor + 1] := by
  rw [mark, addrs_bind, addrs_read, addrs_pure, List.append_nil]

/-- A case of a `switch` that is met. -/
theorem switch_here {yych c : UInt8} {l : Label} (h : yych = c) :
    switch yych ((c, l) :: cases) default = l := if_pos h

/-- A case of a `switch` that is not. -/
theorem switch_next {yych c : UInt8} {l : Label} (h : yych ≠ c) :
    switch yych ((c, l) :: cases) default = switch yych cases default := if_neg h

end Rounds

/-! ## Over a text that ends with a zero

Over such a text the scanner is followed from match to match: where it is, and to which place it may
fall back, is known from the bytes that it has passed.
-/

/-- The bytes from `lo` on, up to the first zero, which is at `n`. -/
structure Text (mem : ℕ → UInt8) (lo n : ℕ) : Prop where
  /-- `lo` is not behind it -/
  le : lo ≤ n
  /-- the end -/
  zero : mem n = 0
  /-- the first -/
  ne_zero : ∀ j, lo ≤ j → j < n → mem j ≠ 0

/-- Rounds that read between `lo` and `n`. -/
def Goes (mem : ℕ → UInt8) (lo n : ℕ) : Scan → Scan → Prop :=
  Reaches Scan.step mem fun a => lo ≤ a ∧ a ≤ n

/-- Such rounds lead to `return ret`. -/
def Returns (mem : ℕ → UInt8) (lo n : ℕ) (s : Scan) (ret : ℕ) : Prop :=
  ∃ s', Goes mem lo n s s' ∧ s'.label = .returned ret

/-- The pattern starts at `i`. -/
def PatternAt (mem : ℕ → UInt8) (n i : ℕ) : Prop :=
  mem i = 0x01 ∧ mem (i + 1) = 0x03 ∧ ∃ j, i + 2 ≤ j ∧ j < n ∧ mem j = 0x0b

/-- What the attempt that began at `p` comes to: the pattern is found at `p` or behind, or the
scan starts over one byte further on. -/
def Attempt (mem : ℕ → UInt8) (lo n p : ℕ) (s : Scan) : Prop :=
  (Returns mem lo n s 1 ∧ ∃ i, p ≤ i ∧ PatternAt mem n i) ∨
    Goes mem lo n s ⟨.firstGroup, p + 1, p + 1, 0⟩

section Attempts

variable {mem : ℕ → UInt8} {lo n p c i m a : ℕ} {s s' : Scan}

theorem Returns.after {ret : ℕ} (h : Goes mem lo n s s') (h' : Returns mem lo n s' ret) :
    Returns mem lo n s ret := by
  obtain ⟨t, ht, hret⟩ := h'
  exact ⟨t, h.trans ht, hret⟩

theorem Attempt.after (h : Goes mem lo n s s') (h' : Attempt mem lo n p s') :
    Attempt mem lo n p s := by
  rcases h' with ⟨hret, hfound⟩ | hover
  · exact .inl ⟨hret.after h, hfound⟩
  · exact .inr (h.trans hover)

/-- A round that reads nothing. -/
theorem goes_silent (h : s.step = pure s') : Goes mem lo n s s' := by
  have hvalue : s.step.value mem = s' := by rw [h, value_pure]
  refine .head hvalue ?_ (.refl s')
  rw [h]
  rintro a ⟨⟩

/-- A round that moves the cursor and goes by the byte there. -/
theorem goes_advance {cases : List (UInt8 × Label)} {default l : Label}
    (h : s.step = s.advance cases default) (hlo : lo ≤ s.cursor + 1) (hn : s.cursor + 1 ≤ n)
    (hl : switch (mem (s.cursor + 1)) cases default = l) :
    Goes mem lo n s { s with cursor := s.cursor + 1, label := l } := by
  refine .head (by rw [h, Scan.value_advance, hl]) ?_ (.refl _)
  rw [h, Scan.addrs_advance, List.forall_mem_singleton]
  exact ⟨hlo, hn⟩

/-- A round that also sets the marker. -/
theorem goes_mark {cases : List (UInt8 × Label)} {default l : Label}
    (h : s.step = { s with yyaccept := a }.mark cases default) (hlo : lo ≤ s.cursor + 1)
    (hn : s.cursor + 1 ≤ n) (hl : switch (mem (s.cursor + 1)) cases default = l) :
    Goes mem lo n s ⟨l, s.cursor + 1, s.cursor + 1, a⟩ := by
  refine .head (by rw [h, Scan.value_mark, hl]) ?_ (.refl _)
  rw [h, Scan.addrs_mark, List.forall_mem_singleton]
  exact ⟨hlo, hn⟩

/-- The first byte of an attempt. -/
theorem goes_firstGroup {l : Label} (hlo : lo ≤ p) (hn : p ≤ n)
    (hl : switch (mem p) [(0x00, .yy2), (0x01, .yy4)] .yy6 = l) :
    Goes mem lo n ⟨.firstGroup, p, m, a⟩ ⟨l, p, m, 0⟩ := by
  refine .head (by rw [Scan.step, value_bind, value_read, value_pure, hl]) ?_ (.refl _)
  rw [Scan.step, addrs_bind, addrs_read, addrs_pure, List.append_nil, List.forall_mem_singleton]
  exact ⟨hlo, hn⟩

/-- Back to the marker, and into the next attempt. -/
theorem goes_back : Goes mem lo n ⟨.yy8, c, m, 0⟩ ⟨.firstGroup, m, m, 0⟩ := by
  have hback : Goes mem lo n ⟨.yy8, c, m, 0⟩ ⟨.yy5, m, m, 0⟩ := goes_silent rfl
  exact hback.trans (goes_silent rfl)

/-- `yy15` returns. -/
theorem returns_yy15 : Returns mem lo n ⟨.yy15, c, m, a⟩ 1 :=
  ⟨⟨.returned 1, c, m, a⟩, goes_silent rfl, rfl⟩

/-- Once the pattern is complete the scan goes on to the end of the text and returns 1. -/
theorem returns_of_accepted (ht : Text mem lo n) (hc : lo ≤ c) (hn : c < n) :
    Returns mem lo n ⟨.yy13, c, m, a⟩ 1 ∧ Returns mem lo n ⟨.yy10, c, m, 1⟩ 1 := by
  induction hd : n - c generalizing c m a with
  | zero => omega
  | succ d ih =>
    have hlo : lo ≤ c + 1 := by omega
    rcases Nat.lt_or_ge (c + 1) n with hlt | hge
    · have hne := ht.ne_zero (c + 1) hlo hlt
      have hrest := fun m => @ih (c + 1) m 1 hlo hlt (by omega)
      by_cases hb : mem (c + 1) = 0x0b
      · refine ⟨(hrest (c + 1)).1.after (goes_mark rfl hlo hn ?_),
          (hrest m).1.after (goes_advance rfl hlo hn ?_)⟩
        · rw [switch_next hne, switch_here hb]
        · rw [switch_next hne, switch_here hb]
      · refine ⟨(hrest (c + 1)).2.after (goes_mark rfl hlo hn ?_),
          (hrest m).2.after (goes_advance rfl hlo hn ?_)⟩
        · rw [switch_next hne, switch_next hb, switch]
        · rw [switch_next hne, switch_next hb, switch]
    · -- the byte behind is the final zero
      obtain rfl : c + 1 = n := by omega
      refine ⟨returns_yy15.after (goes_mark rfl hlo le_rfl (switch_here ht.zero)), ?_⟩
      have hback : Goes mem lo (c + 1) ⟨.yy8, c + 1, m, 1⟩ ⟨.yy15, m, m, 1⟩ := goes_silent rfl
      exact (returns_yy15.after hback).after (goes_advance rfl hlo le_rfl (switch_here ht.zero))

/-- A failed attempt falls back to the marker. -/
theorem attempt_yy8 : Attempt mem lo n p ⟨.yy8, c, p + 1, 0⟩ := .inr goes_back

/-- The body of the pattern, up to a byte 11 or to the end of the text. -/
theorem returns_or_fails (ht : Text mem lo n) (hc : lo ≤ c) (hn : c < n) :
    (Returns mem lo n ⟨.yy10, c, m, 0⟩ 1 ∧ ∃ j, c + 1 ≤ j ∧ j < n ∧ mem j = 0x0b) ∨
      (Goes mem lo n ⟨.yy10, c, m, 0⟩ ⟨.yy8, n, m, 0⟩ ∧
        ∀ j, c + 1 ≤ j → j < n → mem j ≠ 0x0b) := by
  induction hd : n - c generalizing c with
  | zero => omega
  | succ d ih =>
    have hlo : lo ≤ c + 1 := by omega
    rcases Nat.lt_or_ge (c + 1) n with hlt | hge
    · have hne := ht.ne_zero (c + 1) hlo hlt
      by_cases hb : mem (c + 1) = 0x0b
      · have hcomplete := (returns_of_accepted (m := m) (a := 0) ht hlo hlt).1
        refine .inl ⟨hcomplete.after (goes_advance rfl hlo hn ?_), c + 1, le_rfl, hlt, hb⟩
        rw [switch_next hne, switch_here hb]
      · have hstep : Goes mem lo n ⟨.yy10, c, m, 0⟩ ⟨.yy10, c + 1, m, 0⟩ := by
          refine goes_advance rfl hlo hn ?_
          rw [switch_next hne, switch_next hb, switch]
        rcases ih hlo hlt (by omega) with ⟨hret, j, hj, hjn, hjb⟩ | ⟨hfail, hnone⟩
        · exact .inl ⟨hret.after hstep, j, by omega, hjn, hjb⟩
        · refine .inr ⟨hstep.trans hfail, fun j hj hjn => ?_⟩
          rcases Nat.eq_or_lt_of_le hj with rfl | hj'
          · exact hb
          · exact hnone j hj' hjn
    · -- the byte behind is the final zero
      obtain rfl : c + 1 = n := by omega
      exact .inr ⟨goes_advance rfl hlo le_rfl (switch_here ht.zero), fun j hj hjn => by omega⟩

/-- Where the pattern's first two bytes have been seen at `i`. -/
theorem attempt_yy10 (ht : Text mem lo n) (hlo : lo ≤ i + 1) (hp : p ≤ i) (hn : i + 1 < n)
    (h1 : mem i = 0x01) (h3 : mem (i + 1) = 0x03) :
    Attempt mem lo n p ⟨.yy10, i + 1, p + 1, 0⟩ := by
  rcases returns_or_fails (m := p + 1) ht hlo hn with ⟨hret, hbody⟩ | ⟨hfail, -⟩
  · exact .inl ⟨hret, i, hp, h1, h3, hbody⟩
  · exact attempt_yy8.after hfail

/-- A byte that is not zero is not the end of the text. -/
theorem Text.lt (ht : Text mem lo n) (hc : c ≤ n) (hne : mem c ≠ 0) : c < n := by
  rcases Nat.eq_or_lt_of_le hc with rfl | hlt
  · exact absurd ht.zero hne
  · exact hlt

/-- Where a byte 1 has been seen at `i`. -/
theorem attempt_yy12 (ht : Text mem lo n) (hlo : lo ≤ i) (hp : p ≤ i) (hn : i < n)
    (h1 : mem i = 0x01) : Attempt mem lo n p ⟨.yy12, i, p + 1, 0⟩ := by
  by_cases h3 : mem (i + 1) = 0x03
  · have hlt : i + 1 < n := ht.lt hn (by rw [h3]; decide)
    exact (attempt_yy10 ht (by omega) hp hlt h1 h3).after
      (goes_advance rfl (Nat.le_succ_of_le hlo) hn (switch_here h3))
  · refine attempt_yy8.after (goes_advance rfl (Nat.le_succ_of_le hlo) hn ?_)
    rw [switch_next h3, switch]

/-- The second byte of an attempt was neither zero nor part of the pattern. -/
theorem attempt_yy9 (ht : Text mem lo n) (hlo : lo ≤ p) (hn : p + 1 < n) :
    Attempt mem lo n p ⟨.yy9, p + 1, p + 1, 0⟩ := by
  by_cases h1 : mem (p + 2) = 0x01
  · have hlt : p + 2 < n := ht.lt hn (by rw [h1]; decide)
    exact (attempt_yy12 ht (by omega) (by omega) hlt h1).after
      (goes_advance rfl (by simp only; omega) hn (switch_here h1))
  · refine attempt_yy8.after (goes_advance rfl (by simp only; omega) hn ?_)
    rw [switch_next h1, switch]

/-- The second byte of an attempt was 1. -/
theorem attempt_yy7 (ht : Text mem lo n) (hlo : lo ≤ p) (hn : p + 1 < n)
    (hp1 : mem (p + 1) = 0x01) : Attempt mem lo n p ⟨.yy7, p + 1, p + 1, 0⟩ := by
  by_cases h1 : mem (p + 2) = 0x01
  · have hlt : p + 2 < n := ht.lt hn (by rw [h1]; decide)
    exact (attempt_yy12 ht (by omega) (by omega) hlt h1).after
      (goes_advance rfl (by simp only; omega) hn (switch_here h1))
  by_cases h3 : mem (p + 2) = 0x03
  · have hlt : p + 2 < n := ht.lt hn (by rw [h3]; decide)
    refine (attempt_yy10 ht (by omega) (by omega) hlt hp1 h3).after
      (goes_advance rfl (by simp only; omega) hn ?_)
    rw [switch_next h1, switch_here h3]
  · refine attempt_yy8.after (goes_advance rfl (by simp only; omega) hn ?_)
    rw [switch_next h1, switch_next h3, switch]

/-- The second byte of an attempt, where it is not part of a pattern that starts with the
first. -/
theorem attempt_second (ht : Text mem lo n) (hlo : lo ≤ p) (hn : p < n)
    (h0 : mem (p + 1) = 0x00 → Goes mem lo n s ⟨.yy5, p + 1, p + 1, 0⟩)
    (h1 : mem (p + 1) = 0x01 → Goes mem lo n s ⟨.yy7, p + 1, p + 1, 0⟩)
    (h9 : mem (p + 1) ≠ 0x00 → mem (p + 1) ≠ 0x01 → Goes mem lo n s ⟨.yy9, p + 1, p + 1, 0⟩) :
    Attempt mem lo n p s := by
  by_cases hb0 : mem (p + 1) = 0x00
  · exact .inr ((h0 hb0).trans (goes_silent rfl))
  have hlt : p + 1 < n := ht.lt hn hb0
  by_cases hb1 : mem (p + 1) = 0x01
  · exact (attempt_yy7 ht hlo hlt hb1).after (h1 hb1)
  · exact (attempt_yy9 ht hlo hlt).after (h9 hb0 hb1)

/-- **One attempt**: it finds the pattern, or the pattern does not start where the attempt
did. -/
theorem attempt (ht : Text mem lo n) (hlo : lo ≤ p) (hn : p < n) :
    (Returns mem lo n ⟨.firstGroup, p, m, a⟩ 1 ∧ ∃ i, p ≤ i ∧ PatternAt mem n i) ∨
      (Goes mem lo n ⟨.firstGroup, p, m, a⟩ ⟨.firstGroup, p + 1, p + 1, 0⟩ ∧
        ¬ PatternAt mem n p) := by
  have hlo' : lo ≤ p + 1 := Nat.le_succ_of_le hlo
  have hne := ht.ne_zero p hlo hn
  by_cases h1 : mem p = 0x01
  · have hyy4 : Goes mem lo n ⟨.firstGroup, p, m, a⟩ ⟨.yy4, p, m, 0⟩ :=
      goes_firstGroup hlo hn.le (by rw [switch_next hne, switch_here h1])
    by_cases h3 : mem (p + 1) = 0x03
    · have hlt : p + 1 < n := ht.lt hn (by rw [h3]; decide)
      have hyy10 : Goes mem lo n ⟨.firstGroup, p, m, a⟩ ⟨.yy10, p + 1, p + 1, 0⟩ := by
        refine hyy4.trans (goes_mark rfl hlo' hn ?_)
        rw [switch_next (by rw [h3]; decide), switch_next (by rw [h3]; decide), switch_here h3]
      -- the pattern is complete at `p` as soon as there is a byte 11
      rcases returns_or_fails (m := p + 1) ht hlo' hlt with ⟨hret, hbody⟩ | ⟨hfail, hnone⟩
      · exact .inl ⟨hret.after hyy10, p, le_rfl, h1, h3, hbody⟩
      · refine .inr ⟨(hyy10.trans hfail).trans goes_back, ?_⟩
        rintro ⟨-, -, j, hj, hjn, hjb⟩
        exact hnone j hj hjn hjb
    · refine Or.imp_right (fun hover => ⟨hover, fun hpat => h3 hpat.2.1⟩)
        (Attempt.after hyy4 (attempt_second ht hlo hn ?_ ?_ ?_))
      · exact fun hb0 => goes_mark rfl hlo' hn (switch_here hb0)
      · intro hb1
        refine goes_mark rfl hlo' hn ?_
        rw [switch_next (by rw [hb1]; decide), switch_here hb1]
      · intro hb0 hb1
        refine goes_mark rfl hlo' hn ?_
        rw [switch_next hb0, switch_next hb1, switch_next h3, switch]
  · have hyy6 : Goes mem lo n ⟨.firstGroup, p, m, a⟩ ⟨.yy6, p, m, 0⟩ :=
      goes_firstGroup hlo hn.le (by rw [switch_next hne, switch_next h1, switch])
    refine Or.imp_right (fun hover => ⟨hover, fun hpat => h1 hpat.1⟩)
      (Attempt.after hyy6 (attempt_second ht hlo hn ?_ ?_ ?_))
    · exact fun hb0 => goes_mark rfl hlo' hn (switch_here hb0)
    · intro hb1
      refine goes_mark rfl hlo' hn ?_
      rw [switch_next (by rw [hb1]; decide), switch_here hb1]
    · intro hb0 hb1
      refine goes_mark rfl hlo' hn ?_
      rw [switch_next hb0, switch_next hb1, switch]

end Attempts

/-! ## The whole scan -/

section Whole

variable {mem : ℕ → UInt8} {lo n p m a : ℕ}

/-- From the start of an attempt the scan returns, with 1 exactly if the pattern is ahead. -/
theorem scan_returns (ht : Text mem lo n) (hlo : lo ≤ p) (hn : p ≤ n) :
    (Returns mem lo n ⟨.firstGroup, p, m, a⟩ 1 ∧ ∃ i, p ≤ i ∧ PatternAt mem n i) ∨
      (Returns mem lo n ⟨.firstGroup, p, m, a⟩ 0 ∧ ∀ i, p ≤ i → ¬ PatternAt mem n i) := by
  induction hd : n - p generalizing p m a with
  | zero =>
    obtain rfl : p = n := by omega
    have hyy2 : Goes mem lo p ⟨.firstGroup, p, m, a⟩ ⟨.yy2, p, m, 0⟩ :=
      goes_firstGroup hlo le_rfl (switch_here ht.zero)
    refine .inr ⟨⟨⟨.returned 0, p + 1, m, 0⟩, hyy2.trans (goes_silent rfl), rfl⟩, ?_⟩
    rintro i hi ⟨-, -, j, hj, hjn, -⟩
    omega
  | succ d ih =>
    rcases attempt (m := m) (a := a) ht hlo (by omega) with hfound | ⟨hover, hnot⟩
    · exact .inl hfound
    rcases @ih (p + 1) (p + 1) 0 (by omega) (by omega) (by omega) with ⟨hret, i, hi, hpat⟩ |
      ⟨hret, hnone⟩
    · exact .inl ⟨hret.after hover, i, by omega, hpat⟩
    · refine .inr ⟨hret.after hover, fun i hi => ?_⟩
      rcases Nat.eq_or_lt_of_le hi with rfl | hi'
      · exact hnot
      · exact hnone i hi'

/-- A scan that returns, returns for good, and reads between `lo` and `n` in any number of
rounds. -/
theorem Returns.halts {ret : ℕ} {s : Scan} (h : Returns mem lo n s ret) :
    ∃ k, ∀ rounds, (k ≤ rounds → ((iterate Scan.step rounds s).value mem).label = .returned ret) ∧
      ∀ b ∈ (iterate Scan.step rounds s).addrs mem, lo ≤ b ∧ b ≤ n := by
  obtain ⟨⟨l, c, m, a⟩, hgoes, rfl⟩ := h
  obtain ⟨k, hk⟩ := Reaches.halts hgoes rfl
  exact ⟨k, fun rounds => ⟨fun hle => by rw [(hk rounds).1 hle], (hk rounds).2⟩⟩

end Whole

/-- **The scanner recognises its pattern**: over a text from `p` on whose first zero byte is
at `n`, `lex` returns 1 or 0, reads nothing before `p` or behind `n` in any number of rounds,
and returns 1 exactly if the bytes 1 and 3 are followed by a byte 11. -/
theorem lex_correct (mem : ℕ → UInt8) (p n marker : ℕ) (ht : Text mem p n) :
    ∃ ret ≤ 1, (∃ k, ∀ rounds, k ≤ rounds →
        ((iterate Scan.step rounds (lex p marker)).value mem).label = .returned ret) ∧
      (∀ rounds, ∀ b ∈ (iterate Scan.step rounds (lex p marker)).addrs mem, p ≤ b ∧ b ≤ n) ∧
      (ret = 1 ↔ ∃ i j, p ≤ i ∧ i + 2 ≤ j ∧ j < n ∧
        mem i = 0x01 ∧ mem (i + 1) = 0x03 ∧ mem j = 0x0b) := by
  rcases scan_returns (m := marker) (a := 0) ht le_rfl ht.le with
    ⟨hret, i, hi, h1, h3, j, hj, hjn, hb⟩ | ⟨hret, hnone⟩
  · obtain ⟨k, hk⟩ := hret.halts
    refine ⟨1, le_rfl, ⟨k, fun rounds => (hk rounds).1⟩, fun rounds => (hk rounds).2, ?_⟩
    exact ⟨fun _ => ⟨i, j, hi, hj, hjn, h1, h3, hb⟩, fun _ => rfl⟩
  · obtain ⟨k, hk⟩ := hret.halts
    refine ⟨0, by decide, ⟨k, fun rounds => (hk rounds).1⟩, fun rounds => (hk rounds).2, ?_⟩
    constructor
    · rintro ⟨⟩
    · rintro ⟨i, j, hi, hj, hjn, h1, h3, hb⟩
      exact absurd ⟨h1, h3, j, hj, hjn, hb⟩ (hnone i hi)

/-- The scanner on a text with the pattern in it. -/
theorem lex_correct_sample : ∃ k, ∀ rounds, k ≤ rounds →
    ((iterate Scan.step rounds (lex 0 0)).value
      fun a => [7, 1, 3, 5, 11, 2, 0].getD a 0).label = .returned 1 := by
  obtain ⟨ret, -, hreturns, -, hiff⟩ :=
    lex_correct (fun a => [7, 1, 3, 5, 11, 2, 0].getD a 0) 0 6 0 ⟨by decide, rfl, by decide⟩
  obtain rfl := hiff.mpr ⟨1, 4, by decide⟩
  exact hreturns

/-! ## Without a zero there is no end

All that stops the scanner is a zero. A scan that has not come across one is still running, whatever
it has matched.
-/

/-- Where a scan can be, and with which `yyaccept`, that has not come across a zero. -/
def Running : Label → ℕ → Prop
  | .yy2, _ | .yy15, _ | .returned _, _ => False
  | .yy10, _ | .yy13, _ | .firstGroup, _ => True
  | _, yyaccept => yyaccept = 0

/-- A `switch` on a byte other than zero keeps the scan running if its other cases do. -/
theorem running_switch {yych : UInt8} {cases : List (UInt8 × Label)} {default : Label} {a : ℕ}
    (hne : yych ≠ 0) (hdefault : Running default a)
    (hcases : ∀ x ∈ cases, x.1 ≠ 0 → Running x.2 a) :
    Running (switch yych cases default) a := by
  induction cases with
  | nil => exact hdefault
  | cons x cases ih =>
    rw [switch]
    split
    · next h => exact hcases x List.mem_cons_self (h ▸ hne)
    · exact ih fun y hy => hcases y (List.mem_cons_of_mem x hy)

/-- A round that reads no zero leaves the scan running. -/
theorem running_step {mem : ℕ → UInt8} {s : Scan} (hs : Running s.label s.yyaccept)
    (hreads : ∀ b ∈ s.step.addrs mem, mem b ≠ 0) :
    Running (s.step.value mem).label (s.step.value mem).yyaccept := by
  obtain ⟨l, c, m, a⟩ := s
  cases l <;> simp only [Scan.step, Scan.value_mark, Scan.value_advance, Scan.addrs_mark,
    Scan.addrs_advance, value_bind, value_read, value_pure, addrs_bind, addrs_read, addrs_pure,
    List.append_nil, List.forall_mem_singleton] at hs hreads ⊢
  case yy2 | yy15 | returned => exact hs
  case yy5 => trivial
  case yy8 =>
    obtain rfl : a = 0 := hs
    exact rfl
  case firstGroup | yy4 | yy6 | yy10 | yy13 =>
    exact running_switch hreads (by simp [Running]) (by simp [Running])
  case yy7 | yy9 | yy12 =>
    -- `yyaccept` is still 0 here, so the attempt may be given up
    obtain rfl : a = 0 := hs
    exact running_switch hreads (by simp [Running]) (by simp [Running])

/-- **Without a zero there is no end**: a scan that has read no zero has not returned. -/
theorem lex_running {mem : ℕ → UInt8} {p marker rounds : ℕ}
    (hreads : ∀ b ∈ (iterate Scan.step rounds (lex p marker)).addrs mem, mem b ≠ 0) (ret : ℕ) :
    ((iterate Scan.step rounds (lex p marker)).value mem).label ≠ .returned ret := by
  intro hret
  have hrun := iterate_inv (I := fun s : Scan => Running s.label s.yyaccept)
    (C := fun b => mem b ≠ 0) (fun s hs hC => running_step hs hC) rounds
    (s := lex p marker) trivial hreads
  rw [hret] at hrun
  exact hrun

/-- **How far a scan reads**: it stays below `len` exactly if there is a zero to stop it. -/
theorem lex_below_iff (mem : ℕ → UInt8) (p len marker : ℕ) :
    (∀ rounds, ∀ b ∈ (iterate Scan.step rounds (lex p marker)).addrs mem, b < len) ↔
      ∃ j, p ≤ j ∧ j < len ∧ mem j = 0 := by
  constructor
  · intro hbelow
    by_contra hnone
    push Not at hnone
    -- with a zero at `len` the scan would end, and it does not look there
    have ht : Text (Function.update mem (max p len) 0) p (max p len) := by
      refine ⟨Nat.le_max_left p len, Function.update_self .., fun j hj hjn => ?_⟩
      rw [Function.update_of_ne hjn.ne]
      exact hnone j hj (by omega)
    obtain ⟨ret, -, ⟨k, hk⟩, hreads, -⟩ := lex_correct _ p _ marker ht
    have hagree : ∀ b ∈ (iterate Scan.step k (lex p marker)).addrs mem,
        Function.update mem (max p len) 0 b = mem b := fun b hb => by
      have hlt := hbelow k b hb
      exact Function.update_of_ne (by omega) ..
    obtain ⟨hvalue, haddrs⟩ := coincide hagree
    have hret := hk k le_rfl
    rw [hvalue] at hret
    refine lex_running (fun b hb => ?_) ret hret
    have hge : p ≤ b := (hreads k b (by rwa [haddrs])).1
    exact hnone b hge (hbelow k b hb)
  · rintro ⟨j, hj, hjlen, hzero⟩
    -- the first zero is no further
    have hex : ∃ n, p ≤ n ∧ mem n = 0 := ⟨j, hj, hzero⟩
    have ht : Text mem p (Nat.find hex) := by
      refine ⟨(Nat.find_spec hex).1, (Nat.find_spec hex).2, fun i hi hin h0 => ?_⟩
      exact Nat.find_min hex hin ⟨hi, h0⟩
    obtain ⟨-, -, -, hreads, -⟩ := lex_correct mem p _ marker ht
    intro rounds b hb
    have hle := (hreads rounds b hb).2
    have hfirst := Nat.find_min' hex ⟨hj, hzero⟩
    omega

/-! ## The payload of a packet

`UpdateState` starts the scanner at the payload, or past it. Where the first zero is decides whether
the scanner stays in the packet.
-/

/-- `tcp->th_off`, the high half of the byte -/
def thOff (tcp : ℕ) : Load ℕ := do return (← loadLE 1 (tcp + 12)) / 16

/-- `tcp->th_seq` -/
def thSeq (tcp : ℕ) : Load ℕ := loadLE 4 (tcp + 4)

/-- `UpdateState`, as far as it gets with `rounds` rounds of `lex`: what `lex` returned and
the sequence number to store, or nothing while `lex` is at work. `payload` is the address of
a byte behind the header of a packet and `if(payload)` always takes the branch. -/
def updateState (rounds tcp : ℕ) (offset : UInt32) : Load (Option (ℕ × ℕ)) := do
  let off ← thOff tcp
  let payload := tcp + off * 4
  let s ← iterate Scan.step rounds (lex (payload + offset.toNat) 0)
  match s.label with
  | .returned ret => do
    let seq ← thSeq tcp
    return some (ret, seq)
  | _ => return none

end DyIDS

namespace Frame

open Reads DyIDS

/-- The length of the transport header, in words. -/
def off (f : Frame) (tcp : ℕ) : ℕ := (f.byte (tcp + 12)).toNat / 16

/-- Where `UpdateState` starts `lex`. -/
def scanFrom (f : Frame) (tcp : ℕ) (offset : UInt32) : ℕ := tcp + f.off tcp * 4 + offset.toNat

variable {f : Frame} {tcp : ℕ} {offset : UInt32}

@[simp] theorem value_thOff : (thOff tcp).value f.byte = f.off tcp := by
  simp [thOff, off, leNat]

/-- `UpdateState` reads the header, and the payload as `lex` does. -/
theorem addrs_updateState (rounds : ℕ) :
    (updateState rounds tcp offset).addrs f.byte =
      (tcp + 12) ::
        ((iterate Scan.step rounds (lex (f.scanFrom tcp offset) 0)).addrs f.byte ++
          match ((iterate Scan.step rounds (lex (f.scanFrom tcp offset) 0)).value f.byte).label with
          | .returned _ => List.range' (tcp + 4) 4
          | _ => []) := by
  have hoffs : (thOff tcp).addrs f.byte = [tcp + 12] := by
    simp [thOff]
  rw [updateState, addrs_bind, addrs_bind, value_thOff, hoffs, List.singleton_append, scanFrom]
  congr 2
  split
  · rw [addrs_bind, thSeq, addrs_loadLE, addrs_pure, List.append_nil]
  · rfl

theorem value_updateState (rounds : ℕ) :
    (updateState rounds tcp offset).value f.byte =
      match ((iterate Scan.step rounds (lex (f.scanFrom tcp offset) 0)).value f.byte).label with
      | .returned ret => some (ret, leNat (f.slice (tcp + 4) 4))
      | _ => none := by
  rw [updateState, value_bind, value_bind, value_thOff, scanFrom]
  split
  · rw [value_bind, thSeq, value_loadLE, value_pure, slice]
  · rfl

/-- Where a zero stops the scan, `UpdateState` comes to an end, and to the same result however
many rounds it is given; the sequence number is stored with the matches exactly if the payload
has the pattern. -/
theorem updateState_ends {n : ℕ} (ht : Text f.byte (f.scanFrom tcp offset) n) :
    ∃ ret, (∃ rounds, (updateState rounds tcp offset).value f.byte =
        some (ret, leNat (f.slice (tcp + 4) 4))) ∧
      (∀ rounds x, (updateState rounds tcp offset).value f.byte = some x →
        x = (ret, leNat (f.slice (tcp + 4) 4))) ∧
      (ret ≠ 0 ↔ ∃ i j, f.scanFrom tcp offset ≤ i ∧ i + 2 ≤ j ∧ j < n ∧
        f.byte i = 0x01 ∧ f.byte (i + 1) = 0x03 ∧ f.byte j = 0x0b) := by
  obtain ⟨ret, hle, ⟨k, hk⟩, -, hiff⟩ := lex_correct f.byte (f.scanFrom tcp offset) n 0 ht
  refine ⟨ret, ⟨k, ?_⟩, fun rounds x hx => ?_, ?_⟩
  · rw [value_updateState, hk k le_rfl]
  · rw [value_updateState] at hx
    split at hx
    · next ret' hret' =>
      -- the scan has returned already, and stays with what it returned
      have hstill : ((iterate Scan.step rounds (lex (f.scanFrom tcp offset) 0)).value
          f.byte).step = pure ((iterate Scan.step rounds (lex (f.scanFrom tcp offset) 0)).value
          f.byte) := by
        rw [Scan.step, hret']
      have hlater := hk (rounds + k) (Nat.le_add_left k rounds)
      rw [value_iterate_add, (iterate_still hstill k).1, hret'] at hlater
      obtain rfl := Label.returned.inj hlater
      exact (Option.some.inj hx).symm
    · cases hx
  · rw [← hiff]
    omega

/-- **Where payload scanning stays inside the packet**: with its header inside the packet, the
scan does exactly if there is a zero byte to stop it. -/
theorem updateState_inside_iff (hoff : 5 ≤ f.off tcp) (hfit : tcp + f.off tcp * 4 ≤ f.len) :
    (∀ rounds, f.Inside (updateState rounds tcp offset)) ↔
      ∃ j, f.scanFrom tcp offset ≤ j ∧ j < f.len ∧ f.byte j = 0 := by
  rw [← lex_below_iff f.byte (f.scanFrom tcp offset) f.len 0]
  refine forall_congr' fun rounds => ?_
  rw [Inside, addrs_updateState, List.forall_mem_cons, List.forall_mem_append]
  constructor
  · rintro ⟨-, hscan, -⟩
    exact hscan
  · intro hscan
    refine ⟨by omega, hscan, fun b hb => ?_⟩
    split at hb
    · rw [List.mem_range'_1] at hb
      omega
    · cases hb

/-- A TCP packet without options and with nothing behind its header. -/
def emptyPayload : Frame := ofBytes (List.replicate 46 0 ++ 0x50 :: List.replicate 7 0)

/-- Its scan reads the byte behind it. -/
theorem emptyPayload_outside :
    5 ≤ emptyPayload.off 34 ∧ 34 + emptyPayload.off 34 * 4 ≤ emptyPayload.len ∧
      ¬ ∀ rounds, emptyPayload.Inside (updateState rounds 34 0) := by
  refine ⟨by decide, by decide, fun h => ?_⟩
  exact absurd (h 1 54 (by decide)) (by decide)

/-- A TCP packet with two zeros behind its header. -/
def zeroPayload : Frame := ofBytes (List.replicate 46 0 ++ 0x50 :: List.replicate 9 0)

/-- With a zero at the offset the scan ends inside the packet. -/
theorem updateState_inside_sample :
    34 + zeroPayload.off 34 * 4 ≤ zeroPayload.len ∧
      ∀ rounds, zeroPayload.Inside (updateState rounds 34 1) :=
  ⟨by decide, (updateState_inside_iff (by decide) (by decide)).mpr ⟨55, by decide⟩⟩

end Frame

end Fajita
