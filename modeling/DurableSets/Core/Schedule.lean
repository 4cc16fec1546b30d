import DurableSets.Core.Run

variable {S Op Pc C : Type*}

def play (exec : S → C → Option (Event Op × S)) : S → List C → Option S
  | s, [] => some s
  | s, c :: cs => (exec s c).bind fun r => play exec r.2 cs

section Play

variable {exec : S → C → Option (Event Op × S)} {s s' : S} {cs ds : List C}

theorem play_append : play exec s (cs ++ ds) = (play exec s cs).bind fun r => play exec r ds := by
  induction cs generalizing s with
  | nil => rfl
  | cons c cs ih =>
    simp only [List.cons_append, play]
    cases exec s c with
    | none => rfl
    | some r => exact ih

theorem play_take (h : play exec s cs = some s') (n : ℕ) :
    ∃ r, play exec s (cs.take n) = some r := by
  rw [← List.take_append_drop n cs, play_append] at h
  obtain ⟨r, hr, _⟩ := Option.bind_eq_some_iff.1 h
  exact ⟨r, hr⟩

theorem play_succ {r : S} {n : ℕ} (h : play exec s cs = some s') (hn : n < cs.length)
    (hr : play exec s (cs.take n) = some r) :
    ∃ e r', exec r cs[n] = some (e, r') ∧ play exec s (cs.take (n + 1)) = some r' := by
  obtain ⟨r', hr'⟩ := play_take h (n + 1)
  rw [List.take_succ_eq_append_getElem hn, play_append, hr, Option.bind_some] at hr'
  obtain ⟨⟨e, r1⟩, he, h1⟩ := Option.bind_eq_some_iff.1 hr'
  obtain rfl := Option.some.inj h1
  refine ⟨e, r1, he, ?_⟩
  rw [List.take_succ_eq_append_getElem hn, play_append, hr, Option.bind_some]
  exact Option.bind_eq_some_iff.2 ⟨(e, r1), he, rfl⟩

end Play

def guarded (P : S → Bool) (exec : S → C → Option (Event Op × S)) (s : S) (c : C) :
    Option (Event Op × S) := if P s then exec s c else none

theorem guarded_inv {P : S → Bool} {exec : S → C → Option (Event Op × S)} {s : S} {c : C}
    {r : Event Op × S} (h : guarded P exec s c = some r) : P s = true ∧ exec s c = some r := by
  unfold guarded at h
  split at h
  · next hp => exact ⟨hp, h⟩
  · cases h

structure Plays {M : Machine S Op Pc} (exec : S → C → Option (Event Op × S)) (s : S) (cs : List C)
    (ρ : Run M) : Prop where
  length : ρ.length = cs.length
  state : ∀ {n}, n ≤ cs.length → play exec s (cs.take n) = some (ρ.state n)
  exec : ∀ {n} (h : n < cs.length), exec (ρ.state n) cs[n] = some (ρ.event n, ρ.state (n + 1))

theorem Plays.command {M : Machine S Op Pc} {exec : S → C → Option (Event Op × S)} {s : S}
    {cs : List C} {ρ : Run M} (p : Plays exec s cs ρ) {n : ℕ} {c : C} (h : cs[n]? = some c) :
    exec (ρ.state n) c = some (ρ.event n, ρ.state (n + 1)) := by
  obtain ⟨hn, rfl⟩ := List.getElem?_eq_some_iff.1 h
  exact p.exec hn

theorem exists_run {M : Machine S Op Pc} {exec : S → C → Option (Event Op × S)} {I : S → Prop}
    (sound : ∀ {s c e s'}, I s → exec s c = some (e, s') → M.step s e s' ∧ I s')
    {s s' : S} {cs : List C} (h0 : M.init s) (hI : I s) (h : play exec s cs = some s') :
    ∃ ρ : Run M, Plays exec s cs ρ := by
  have : Nonempty (Event Op) := ⟨.tau 0⟩
  have hstep : ∀ n (hn : n < cs.length), ∃ e,
      exec ((play exec s (cs.take n)).getD s) cs[n] =
        some (e, (play exec s (cs.take (n + 1))).getD s) := by
    intro n hn
    obtain ⟨r, hr⟩ := play_take h n
    obtain ⟨e, r', he, hr'⟩ := play_succ h hn hr
    rw [hr, hr']
    exact ⟨e, he⟩
  choose! ev hev using hstep
  have hinv : ∀ n ≤ cs.length, I ((play exec s (cs.take n)).getD s) := by
    intro n
    induction n with
    | zero => exact fun _ => hI
    | succ n ih => exact fun hn => (sound (ih (by omega)) (hev n (by omega))).2
  refine ⟨⟨fun n => (play exec s (cs.take n)).getD s, ev, cs.length, h0, ?_⟩, rfl, ?_, ?_⟩
  · exact fun hm => (sound (hinv _ hm.le) (hev _ hm)).1
  · intro n _
    obtain ⟨r, hr⟩ := play_take h n
    simp [hr]
  · exact fun hn => hev _ hn

-- the first n commands can be played, and the test holds after them
def reached (exec : S → C → Option (Event Op × S)) (s : S) (cs : List C) (n : ℕ) (P : S → Bool) :
    Bool := decide (n ≤ cs.length) && (play exec s (cs.take n)).any P

section Plays

variable {M : Machine S Op Pc} {exec : S → C → Option (Event Op × S)} {s r : S} {cs : List C}
  {ρ : Run M} {n : ℕ}

theorem Plays.holds (p : Plays exec s cs ρ) (n : ℕ) {P : S → Bool}
    (h : reached exec s cs n P = true) : P (ρ.state n) = true := by
  obtain ⟨hn, h⟩ := Bool.and_eq_true_iff.1 h
  rw [p.state (of_decide_eq_true hn)] at h
  exact h

theorem Plays.last (p : Plays exec s cs ρ) {P : S → Bool} (h : (play exec s cs).any P = true) :
    P (ρ.state ρ.length) = true := by
  have hs := p.state le_rfl
  rw [List.take_length] at hs
  rw [hs] at h
  rw [p.length]
  exact h

theorem Plays.stretch (p : Plays exec s cs ρ) {P : Event Op → Prop} {Q : C → Bool}
    (hQ : ∀ {s c e s'}, exec s c = some (e, s') → Q c = true → P e) {i j : ℕ} (hj : j ≤ cs.length)
    (h : ((cs.take j).drop i).all Q = true) {k : ℕ} (hi : i ≤ k) (hk : k < j) : P (ρ.event k) := by
  have hkl : k < cs.length := by omega
  refine hQ (p.exec hkl) (List.all_eq_true.1 h _ ?_)
  refine List.mem_iff_getElem.2 ⟨k - i, by simp; omega, ?_⟩
  simp [Nat.add_sub_cancel' hi]

end Plays
