import MailTemplate.Mime.Boundary

/-!
# Chosen boundaries

Boundaries are chosen level by level, each beside those before it.  For a level, candidates are drawn
until one is acceptable there: the first one is taken and the next draw is for the next level.  If none
of sixteen is acceptable, the choice fails and nothing more is drawn.

A choice is therefore told by its draws alone.  `Filled` says what has been chosen and what has been
asked for when some levels are filled, and a choice is an account of this kind for all levels or one
that ends before a level without a candidate.

## Main definitions

* `Boundary.Acceptable` — what a candidate must be beside the boundaries that are chosen already.
* `Boundary.FirstAccepted` — the draws for one level.
* `Boundary.Filled` — the levels that are filled, and the levels that were asked for.
* `Boundary.UsableTogether` — what holds of the boundaries of one message.

## Main results

* `Boundary.choose_of_filled`, `Boundary.choose_cases` — a choice goes through the levels that can be
  filled.
* `Boundary.choose_takes_first_accepted` — what is chosen, what is asked for, and when a choice fails.
* `Boundary.usableTogether_of_choose` — the boundaries of a choice are usable together.
-/

namespace MailTemplate

namespace Boundary

variable {source : BoundarySource} {body encoded : List Char} {chosen bs : List String}
  {asked drawn asked' : List Nat}

/-! ## Candidates -/

/-- A candidate can be used for a body and its encoded form beside the boundaries that are chosen
already. -/
structure Acceptable (body encoded : List Char) (chosen : List String) (candidate : String) :
    Prop where
  /-- It is not empty. -/
  nonempty : candidate.toList ≠ []
  /-- It does not occur in the body. -/
  notInBody : ¬ candidate.toList <:+: body
  /-- It does not occur in the encoded form. -/
  notInEncoded : ¬ candidate.toList <:+: encoded
  /-- It neither is a part of a chosen boundary nor has one as a part. -/
  apart : ∀ b ∈ chosen, ¬ candidate.toList <:+: b.toList ∧ ¬ b.toList <:+: candidate.toList

theorem isUsable_iff {candidate : String} :
    isUsable body encoded chosen candidate = true ↔ Acceptable body encoded chosen candidate := by
  have hparts : isUsable body encoded chosen candidate = true ↔
      candidate.toList ≠ [] ∧ ¬ candidate.toList <:+: body ∧ ¬ candidate.toList <:+: encoded ∧
        ∀ b ∈ chosen, ¬ candidate.toList <:+: b.toList ∧ ¬ b.toList <:+: candidate.toList := by
    simp only [isUsable, Bool.and_eq_true, Bool.not_eq_true', ← Bool.not_eq_true, Text.contains_iff,
      List.all_eq_true, decide_eq_true_eq, and_assoc]
  rw [hparts]
  constructor
  · rintro ⟨hne, hbody, hencoded, hother⟩
    exact ⟨hne, hbody, hencoded, hother⟩
  · intro h
    exact ⟨h.nonempty, h.notInBody, h.notInEncoded, h.apart⟩

/-- Boundaries that were drawn from a source and can stand in one message. -/
structure UsableTogether (source : BoundarySource) (body encoded : List Char)
    (chosen : List String) : Prop where
  /-- Each is a candidate. -/
  drawn : ∀ b ∈ chosen, ∃ drawn level, source drawn level = b
  /-- None is empty. -/
  nonempty : ∀ b ∈ chosen, b.toList ≠ []
  /-- None occurs in the body. -/
  notInBody : ∀ b ∈ chosen, ¬ b.toList <:+: body
  /-- None occurs in its encoded form. -/
  notInEncoded : ∀ b ∈ chosen, ¬ b.toList <:+: encoded
  /-- None is a part of another one. -/
  apart : chosen.Pairwise fun a b => ¬ a.toList <:+: b.toList ∧ ¬ b.toList <:+: a.toList

theorem UsableTogether.nil : UsableTogether source body encoded [] := by
  refine ⟨?_, ?_, ?_, ?_, .nil⟩ <;> intro b hb <;> exact absurd hb List.not_mem_nil

/-- One more candidate that is acceptable beside the chosen boundaries can be chosen too. -/
theorem UsableTogether.append {candidate : String}
    (h : UsableTogether source body encoded chosen)
    (hdrawn : ∃ drawn level, source drawn level = candidate)
    (haccepted : Acceptable body encoded chosen candidate) :
    UsableTogether source body encoded (chosen ++ [candidate]) := by
  have hforall {P : String → Prop} (hc : ∀ b ∈ chosen, P b) (hp : P candidate) :
      ∀ b ∈ chosen ++ [candidate], P b :=
    List.forall_mem_append.2 ⟨hc, List.forall_mem_singleton.2 hp⟩
  refine ⟨hforall h.drawn hdrawn, hforall h.nonempty haccepted.nonempty,
    hforall h.notInBody haccepted.notInBody, hforall h.notInEncoded haccepted.notInEncoded, ?_⟩
  rw [List.pairwise_append]
  refine ⟨h.apart, List.pairwise_singleton _ _, ?_⟩
  intro a ha b hb
  obtain rfl := List.mem_singleton.1 hb
  exact (haccepted.apart a ha).symm

/-! ## The draws for one level -/

section Draws

variable {usable : String → Bool} {level attempts : Nat} {b : String}

/-- Drawing for a level ends with the first candidate that is usable, and asks for nothing but the
level. -/
theorem drawFor_eq_some_iff :
    drawFor source usable level asked attempts = (some b, asked') ↔
      ∃ rejected, rejected < attempts ∧ asked' = asked ++ List.replicate (rejected + 1) level ∧
        source (asked.length + rejected) level = b ∧ usable b = true ∧
        ∀ k < rejected, usable (source (asked.length + k) level) = false := by
  -- Every draw counts as one more, so the levels asked for so far change along the induction.
  induction attempts generalizing asked with
  | zero => simp [drawFor]
  | succ attempts ih =>
    simp only [drawFor]
    split
    · next husable =>
      constructor
      · intro h
        obtain ⟨hb, rfl⟩ := Prod.mk.inj h
        obtain rfl := Option.some.inj hb
        exact ⟨0, Nat.succ_pos _, rfl, rfl, husable, by simp⟩
      · rintro ⟨rejected, -, rfl, rfl, -, hearlier⟩
        -- The first candidate is usable, so none was rejected before.
        cases rejected with
        | zero => rfl
        | succ rejected => exact absurd husable (by simpa using hearlier 0 (Nat.succ_pos _))
    · next hrejected =>
      have hlength (k : Nat) : (asked ++ [level]).length + k = asked.length + (k + 1) := by
        rw [List.length_append, List.length_singleton]
        omega
      have hasked (k : Nat) : asked ++ [level] ++ List.replicate (k + 1) level =
          asked ++ List.replicate (k + 1 + 1) level := by
        rw [List.append_assoc, List.singleton_append, ← List.replicate_succ]
      rw [ih]
      simp only [hlength, hasked]
      constructor
      · rintro ⟨rejected, hlt, rfl, rfl, husable, hearlier⟩
        refine ⟨rejected + 1, Nat.succ_lt_succ hlt, rfl, rfl, husable, fun k hk => ?_⟩
        cases k with
        | zero => simpa using hrejected
        | succ k => exact hearlier k (Nat.lt_of_succ_lt_succ hk)
      · rintro ⟨rejected, hlt, rfl, rfl, husable, hearlier⟩
        cases rejected with
        | zero => exact absurd husable hrejected
        | succ rejected =>
          exact ⟨rejected, Nat.lt_of_succ_lt_succ hlt, rfl, rfl, husable,
            fun k hk => hearlier (k + 1) (Nat.succ_lt_succ hk)⟩

/-- Drawing for a level fails after all attempts. -/
theorem drawFor_eq_none_iff :
    drawFor source usable level asked attempts = (none, asked') ↔
      asked' = asked ++ List.replicate attempts level ∧
        ∀ k < attempts, usable (source (asked.length + k) level) = false := by
  induction attempts generalizing asked with
  | zero =>
    rw [drawFor, List.replicate_zero, List.append_nil]
    simp [eq_comm (a := asked)]
  | succ attempts ih =>
    simp only [drawFor]
    split
    · next husable =>
      refine iff_of_false (by simp) fun h => ?_
      exact absurd husable (by simpa using h.2 0 (Nat.succ_pos _))
    · next hrejected =>
      have hasked : asked ++ [level] ++ List.replicate attempts level =
          asked ++ List.replicate (attempts + 1) level := by
        rw [List.append_assoc, List.singleton_append, ← List.replicate_succ]
      rw [ih, hasked]
      refine and_congr_right fun _ => ?_
      constructor
      · intro h k hk
        cases k with
        | zero => simpa using hrejected
        | succ k =>
          have hnext := h k (Nat.lt_of_succ_lt_succ hk)
          rwa [List.length_append, List.length_singleton, Nat.add_assoc, Nat.add_comm 1] at hnext
      · intro h k hk
        rw [List.length_append, List.length_singleton, Nat.add_assoc, Nat.add_comm 1]
        exact h (k + 1) (Nat.succ_lt_succ hk)

end Draws

/-- The draws for a level that begin after so many others: some candidates that are not accepted,
fewer than sixteen, and then the one that is. -/
structure FirstAccepted (source : BoundarySource) (accepts : String → Prop)
    (drawn level rejected : Nat) (b : String) : Prop where
  /-- There are at most sixteen candidates. -/
  within : rejected < 16
  /-- It is drawn behind the others. -/
  candidate : source (drawn + rejected) level = b
  /-- It is accepted. -/
  accepted : accepts b
  /-- None before it is. -/
  earlier : ∀ k < rejected, ¬ accepts (source (drawn + k) level)

theorem drawFor_isUsable_eq_some_iff {level : Nat} {b : String} :
    drawFor source (isUsable body encoded chosen) level asked maxAttempts = (some b, asked') ↔
      ∃ rejected, FirstAccepted source (Acceptable body encoded chosen) asked.length level rejected b ∧
        asked' = asked ++ List.replicate (rejected + 1) level := by
  rw [drawFor_eq_some_iff]
  refine exists_congr fun rejected => ?_
  simp only [← Bool.not_eq_true, isUsable_iff]
  constructor
  · rintro ⟨hwithin, hasked, hcandidate, haccepted, hearlier⟩
    exact ⟨⟨hwithin, hcandidate, haccepted, hearlier⟩, hasked⟩
  · rintro ⟨h, hasked⟩
    exact ⟨h.within, hasked, h.candidate, h.accepted, h.earlier⟩

theorem drawFor_isUsable_eq_none_iff {level : Nat} :
    drawFor source (isUsable body encoded chosen) level asked maxAttempts = (none, asked') ↔
      asked' = asked ++ List.replicate 16 level ∧
        ∀ k < 16, ¬ Acceptable body encoded chosen (source (asked.length + k) level) := by
  rw [drawFor_eq_none_iff]
  simp only [← Bool.not_eq_true, isUsable_iff]
  rfl

/-! ## The draws for several levels -/

/-- The outermost levels are filled with the boundaries that are `chosen`, and the levels asked for
were `asked` before and are `drawn` now.  Each boundary is the first acceptable candidate for its level,
and every draw asks for the level that is being filled. -/
inductive Filled (source : BoundarySource) (body encoded : List Char) (asked : List Nat) :
    List String → List Nat → Prop where
  /-- No level is filled. -/
  | start : Filled source body encoded asked [] asked
  /-- One more level is filled. -/
  | level {chosen : List String} {drawn : List Nat} {rejected : Nat} {b : String} :
    Filled source body encoded asked chosen drawn →
    FirstAccepted source (Acceptable body encoded chosen) drawn.length chosen.length rejected b →
    Filled source body encoded asked (chosen ++ [b])
      (drawn ++ List.replicate (rejected + 1) chosen.length)

/-- The boundaries of filled levels are usable together. -/
theorem Filled.usableTogether (h : Filled source body encoded asked chosen drawn) :
    UsableTogether source body encoded chosen := by
  induction h with
  | start => exact .nil
  | level _ hfirst ih => exact ih.append ⟨_, _, hfirst.candidate⟩ hfirst.accepted

/-- **A choice goes through the levels that can be filled,** and goes on behind them. -/
theorem choose_of_filled (h : Filled source body encoded asked chosen drawn) (more : Nat) :
    choose source (chosen.length + more) body encoded asked =
      chooseFrom source body encoded chosen chosen.length drawn more := by
  induction h generalizing more with
  | start => rw [choose, List.length_nil, Nat.zero_add]
  | level _ hfirst ih =>
    have hdraw := drawFor_isUsable_eq_some_iff.2 ⟨_, hfirst, rfl⟩
    rw [List.length_append, List.length_singleton, Nat.add_assoc, Nat.add_comm 1, ih, chooseFrom, hdraw]

/-- A choice fails at a level without an acceptable candidate. -/
theorem choose_of_hopeless {count : Nat} (h : Filled source body encoded asked chosen drawn)
    (hcount : chosen.length < count)
    (hnone : ∀ k < 16, ¬ Acceptable body encoded chosen (source (drawn.length + k) chosen.length)) :
    choose source count body encoded asked =
      (.error (.exhausted 16), drawn ++ List.replicate 16 chosen.length) := by
  obtain ⟨more, rfl⟩ : ∃ more, count = chosen.length + (more + 1) := ⟨count - chosen.length - 1, by omega⟩
  have hdraw := drawFor_isUsable_eq_none_iff.2 ⟨rfl, hnone⟩
  rw [choose_of_filled h, chooseFrom, hdraw]
  rfl

/-- Behind filled levels, either all further ones can be filled or a level is hopeless. -/
theorem filled_or_hopeless (h : Filled source body encoded asked chosen drawn) (more : Nat) :
    (∃ bs drawn', Filled source body encoded asked bs drawn' ∧ bs.length = chosen.length + more) ∨
      ∃ bs drawn', Filled source body encoded asked bs drawn' ∧ bs.length < chosen.length + more ∧
        ∀ k < 16, ¬ Acceptable body encoded bs (source (drawn'.length + k) bs.length) := by
  induction more generalizing chosen drawn with
  | zero => exact .inl ⟨chosen, drawn, h, rfl⟩
  | succ more ih =>
    obtain ⟨found, drawn', hdraw⟩ : ∃ found drawn', drawFor source (isUsable body encoded chosen)
        chosen.length drawn maxAttempts = (found, drawn') := ⟨_, _, rfl⟩
    cases found with
    | none => exact .inr ⟨chosen, drawn, h, by omega, (drawFor_isUsable_eq_none_iff.1 hdraw).2⟩
    | some b =>
      obtain ⟨rejected, hfirst, -⟩ := drawFor_isUsable_eq_some_iff.1 hdraw
      have hlength : (chosen ++ [b]).length + more = chosen.length + (more + 1) := by
        rw [List.length_append, List.length_singleton]
        omega
      have hnext := ih (h.level hfirst)
      rwa [hlength] at hnext

/-- **A choice fills all levels or fails at a hopeless one.** -/
theorem choose_cases (source : BoundarySource) (count : Nat) (body encoded : List Char)
    (asked : List Nat) :
    (∃ bs drawn, Filled source body encoded asked bs drawn ∧ bs.length = count ∧
      choose source count body encoded asked = (.ok bs, drawn)) ∨
    ∃ chosen drawn, Filled source body encoded asked chosen drawn ∧ chosen.length < count ∧
      (∀ k < 16, ¬ Acceptable body encoded chosen (source (drawn.length + k) chosen.length)) ∧
      choose source count body encoded asked =
        (.error (.exhausted 16), drawn ++ List.replicate 16 chosen.length) := by
  have hstart : Filled source body encoded asked [] asked := .start
  rcases filled_or_hopeless hstart count with
    ⟨bs, drawn, hfilled, hlength⟩ | ⟨chosen, drawn, hfilled, hlt, hnone⟩
  · obtain rfl : bs.length = count := by simpa using hlength
    exact .inl ⟨bs, drawn, hfilled, rfl, choose_of_filled hfilled 0⟩
  · have hlt : chosen.length < count := by simpa using hlt
    exact .inr ⟨chosen, drawn, hfilled, hlt, hnone, choose_of_hopeless hfilled hlt hnone⟩

/-- A candidate that is empty, or a part of the boundary of the level before, is passed over. -/
example : choose (scripted ["", "ab", "b"] (some "c")) 2 "xay".toList [] [] =
    (.ok ["ab", "c"], [0, 0, 1, 1]) := rfl

/-- **The boundaries of a choice are usable together,** and there is one for each level. -/
theorem usableTogether_of_choose {count : Nat}
    (h : choose source count body encoded asked = (.ok bs, asked')) :
    UsableTogether source body encoded bs ∧ bs.length = count := by
  rcases choose_cases source count body encoded asked with
    ⟨bs', drawn, hfilled, hlength, hchoose⟩ | ⟨chosen, drawn, -, -, -, hchoose⟩
  · rw [hchoose] at h
    obtain ⟨hbs, -⟩ := Prod.mk.inj h
    obtain rfl := Except.ok.inj hbs
    exact ⟨hfilled.usableTogether, hlength⟩
  · rw [hchoose] at h
    exact absurd (Prod.mk.inj h).1 (by simp)

/-- **A choice takes the first acceptable candidate of each level.**  It succeeds with the boundaries of
filled levels, after the draws that fill them, exactly if that many levels can be filled.  It fails after
sixteen draws for a level exactly if those before it can be filled and none of its sixteen candidates is
acceptable.  So it succeeds exactly if every level that is reached has such a candidate, and what is
chosen is usable together. -/
theorem choose_takes_first_accepted (source : BoundarySource) (count : Nat) (body encoded : List Char)
    (asked : List Nat) :
    (∀ bs asked', choose source count body encoded asked = (.ok bs, asked') ↔
      Filled source body encoded asked bs asked' ∧ bs.length = count) ∧
    (∀ failure asked', choose source count body encoded asked = (.error failure, asked') ↔
      failure = .exhausted 16 ∧ ∃ chosen drawn, Filled source body encoded asked chosen drawn ∧
        chosen.length < count ∧
        (∀ k < 16, ¬ Acceptable body encoded chosen (source (drawn.length + k) chosen.length)) ∧
        asked' = drawn ++ List.replicate 16 chosen.length) ∧
    ((∃ bs asked', choose source count body encoded asked = (.ok bs, asked')) ↔
      ∀ chosen drawn, Filled source body encoded asked chosen drawn → chosen.length < count →
        ∃ k < 16, Acceptable body encoded chosen (source (drawn.length + k) chosen.length)) ∧
    ∀ bs asked', Filled source body encoded asked bs asked' →
      UsableTogether source body encoded bs := by
  have hcases := choose_cases source count body encoded asked
  refine ⟨fun bs asked' => ⟨fun h => ?_, ?_⟩, fun failure asked' => ⟨fun h => ?_, ?_⟩, ⟨?_, ?_⟩,
    fun bs asked' h => h.usableTogether⟩
  · rcases hcases with ⟨bs', drawn, hfilled, hlength, hchoose⟩ | ⟨chosen, drawn, -, -, -, hchoose⟩
    · obtain ⟨hbs, rfl⟩ := Prod.mk.inj (hchoose.symm.trans h)
      obtain rfl := Except.ok.inj hbs
      exact ⟨hfilled, hlength⟩
    · exact absurd (Prod.mk.inj (hchoose.symm.trans h)).1 (by simp)
  · rintro ⟨hfilled, rfl⟩
    exact choose_of_filled hfilled 0
  · rcases hcases with ⟨bs', drawn, -, -, hchoose⟩ | ⟨chosen, drawn, hfilled, hlt, hnone, hchoose⟩
    · exact absurd (Prod.mk.inj (hchoose.symm.trans h)).1 (by simp)
    · obtain ⟨hfailure, rfl⟩ := Prod.mk.inj (hchoose.symm.trans h)
      exact ⟨(Except.error.inj hfailure).symm, chosen, drawn, hfilled, hlt, hnone, rfl⟩
  · rintro ⟨rfl, chosen, drawn, hfilled, hlt, hnone, rfl⟩
    exact choose_of_hopeless hfilled hlt hnone
  · rintro ⟨bs, asked', h⟩ chosen drawn hfilled hlt
    -- A level without a candidate would make the choice fail.
    refine Classical.byContradiction fun hno => ?_
    have hnone : ∀ k < 16, ¬ Acceptable body encoded chosen (source (drawn.length + k) chosen.length) :=
      fun k hk haccepted => hno ⟨k, hk, haccepted⟩
    rw [choose_of_hopeless hfilled hlt hnone] at h
    exact absurd (Prod.mk.inj h).1 (by simp)
  · intro hevery
    rcases hcases with ⟨bs, drawn, -, -, hchoose⟩ | ⟨chosen, drawn, hfilled, hlt, hnone, -⟩
    · exact ⟨bs, drawn, hchoose⟩
    · obtain ⟨k, hk, haccepted⟩ := hevery chosen drawn hfilled hlt
      exact absurd haccepted (hnone k hk)

end Boundary

end MailTemplate
