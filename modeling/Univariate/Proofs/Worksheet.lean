import Mathlib
import Univariate.Worksheet

/-!
# Writing and asking

A slot is written and then asked, and the equation in it may be an old one
with a long past.  Nothing of that past is left in the answer: the equation
says the text that has just been written, and it is read as the settings
said when it was made, which is as they say still.

* `Worksheet.text_write` — a slot says what has been written into it last;
* `Worksheet.define_define` — of two texts in one slot only the second one
  counts;
* `Worksheet.Follows` — every equation is read as the settings say, which
  writing keeps (`Worksheet.Follows.define`);
* `Worksheet.Follows.answers_eq` — so an answer depends on the text and the
  settings alone.
-/

namespace Univariate

namespace Worksheet

variable {w : Worksheet} {settings : Settings} {slot text : String} {e : Equation}

/-! ## Writing -/

/-- Giving an equation the text that it says already changes nothing. -/
theorem setText_self (h : w.Has e) (htext : (w.definition e h).text = text) :
    w.setText e h text = w := by
  subst htext
  exact Worksheet.ext rfl (List.set_getElem_self h) rfl

/-- A slot with an equation keeps it, and gives it the new text. -/
theorem define_of_find? (h : w.find? slot = some e) (text : String) :
    w.define slot text = (w.setText e (has_of_find? h) text, e) := by
  unfold define
  split
  next e' h' =>
    obtain rfl : e' = e := Option.some.inj (h'.symm.trans h)
    split_ifs with htext
    · rw [setText_self _ htext]
    · rfl
  next h' => exact absurd (h.symm.trans h') (Option.some_ne_none e)

/-- A slot without an equation is given a new one. -/
theorem define_of_fresh (h : w.find? slot = none) (text : String) :
    w.define slot text = w.create slot text := by
  unfold define
  split
  next e' h' => exact absurd (h'.symm.trans h) (Option.some_ne_none e')
  next => rfl

/-- What is made in a slot is found there. -/
theorem find?_create (h : w.find? slot = none) (text : String) :
    (w.create slot text).1.find? slot = some (w.create slot text).2 := by
  have hlookup : w.slots.lookup slot = none := h
  simp [find?, create, List.lookup_append, hlookup]

/-- **A slot says what has been written into it last.** -/
theorem text_write (w : Worksheet) (slot text : String) : (w.write slot text).2.text = text := by
  cases h : w.find? slot with
  | none => simp [write, define_of_fresh h, definition, create]
  | some e => simp [write, define_of_find? h, definition, setText]

/-- **Of two texts in one slot only the second one counts.** -/
theorem define_define (w : Worksheet) (slot text text' : String) :
    (w.define slot text).1.define slot text' = w.define slot text' := by
  cases h : w.find? slot with
  | none =>
      have hfound := find?_create h text
      rw [define_of_fresh h, define_of_fresh h, define_of_find? hfound]
      refine Prod.ext (Worksheet.ext rfl ?_ rfl) rfl
      simp [create, setText, definition]
  | some e =>
      have hfound : (w.setText e (has_of_find? h) text).find? slot = some e := h
      rw [define_of_find? h, define_of_find? h, define_of_find? hfound]
      refine Prod.ext (Worksheet.ext rfl ?_ rfl) rfl
      simp [setText, definition]

/-- What a slot is asked does not depend on the text that was in it before. -/
theorem samples_define (w : Worksheet) (slot text text' : String) :
    (w.define slot text).1.samples slot text' = w.samples slot text' := by
  simp only [samples, write, define_define]

/-! ## Reading as the settings say -/

/-- Every equation is read as the settings say. -/
structure Follows (settings : Settings) (w : Worksheet) : Prop where
  settings_eq : w.settings = settings
  reads : ∀ d ∈ w.definitions, d.name = settings.name ∧ d.maxDegree = settings.maxDegree

/-- An empty worksheet has nothing that could be read otherwise. -/
theorem follows_empty (settings : Settings) : (empty settings).Follows settings := ⟨rfl, nofun⟩

/-- **Writing keeps the equations as the settings say.** -/
theorem Follows.define (h : w.Follows settings) (slot text : String) :
    (w.define slot text).1.Follows settings := by
  cases hfind : w.find? slot with
  | none =>
      rw [define_of_fresh hfind]
      refine ⟨h.settings_eq, fun d hd => ?_⟩
      rcases List.mem_append.mp hd with hold | hnew
      · exact h.reads d hold
      · rw [List.mem_singleton.mp hnew, h.settings_eq]
        exact ⟨rfl, rfl⟩
  | some e =>
      rw [define_of_find? hfind]
      refine ⟨h.settings_eq, fun d hd => ?_⟩
      rcases List.mem_or_eq_of_mem_set hd with hold | rfl
      · exact h.reads d hold
      · -- Only the text is another one.
        exact h.reads (w.definition e (has_of_find? hfind)) (List.getElem_mem _)

/-- What is asked is the text, under the settings. -/
theorem Follows.write_eq (h : w.Follows settings) (slot text : String) :
    (w.write slot text).2 = ⟨text, settings.name, settings.maxDegree⟩ := by
  have hmem : (w.write slot text).2 ∈ (w.define slot text).1.definitions := List.getElem_mem _
  obtain ⟨hname, hmaxDegree⟩ := (h.define slot text).reads _ hmem
  calc (w.write slot text).2
      = ⟨(w.write slot text).2.text, (w.write slot text).2.name,
          (w.write slot text).2.maxDegree⟩ := rfl
    _ = ⟨text, settings.name, settings.maxDegree⟩ := by rw [text_write, hname, hmaxDegree]

/-- **What a slot answers depends on its text and the settings alone**,
whatever has been written before. -/
theorem Follows.answers_eq (h : w.Follows settings) (slot text : String) :
    (w.parse slot text).2 = settings.parse text ∧
      (w.normalForm slot text).2 = settings.normalForm text ∧
      (w.samples slot text).2 = settings.samples text := by
  have hwrite := h.write_eq slot text
  refine ⟨?_, ?_, ?_⟩
  · calc (w.parse slot text).2 = (w.write slot text).2.parse := rfl
      _ = settings.parse text := by rw [hwrite, Definition.parse, Settings.parse]
  · calc (w.normalForm slot text).2 = (w.write slot text).2.normalForm := rfl
      _ = settings.normalForm text := by rw [hwrite]; rfl
  · calc (w.samples slot text).2 = (w.write slot text).2.samples := rfl
      _ = settings.samples text := by rw [hwrite]; rfl

end Worksheet

end Univariate
