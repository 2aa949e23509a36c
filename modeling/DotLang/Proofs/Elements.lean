import DotLang.Markup.Validation

/-!
# Well formed markup is one element

The check of markup counts, the reader keeps names. Where the check counts an event, it has counted as many open
elements as the reader keeps there, so it never counts a closing tag too many. What it accepts is read off the
events: one element, and nothing but blank text and asides around it.
-/

namespace DotLang.Markup

/-! ## The elements that the reader keeps -/

/-- The events that `read` gives, each with the elements that are open behind it. -/
def keeping (opened : List (List Char)) (text : List Char) : List (Event × List (List Char)) :=
  let content := text.takeWhile (· ≠ '<')
  let texts := if content.isEmpty then [] else [(Event.text content, opened)]
  match _h : text.dropWhile (· ≠ '<') with
  | [] | [_] => texts
  | _ :: c :: rest =>
    match _hs : readConstruct opened (c :: rest) with
    | .error _ => texts
    | .ok step => texts ++ (step.event, step.opened) :: keeping step.opened step.rest
termination_by text.length
decreasing_by
  have h₁ := readConstruct_length _hs
  have h₂ := (List.dropWhile_suffix (l := text) (· ≠ '<')).length_le
  rw [_h] at h₂
  simp only [List.length_cons] at h₁ h₂
  omega

def kept (text : List Char) : List (Event × List (List Char)) :=
  match text with
  | '\uFEFF' :: rest => keeping [] rest
  | _ => keeping [] text

theorem map_keeping (opened : List (List Char)) (offset : Nat) (text : List Char) :
    (keeping opened text).map Prod.fst = (read opened offset text).events := by
  fun_induction keeping opened text generalizing offset with
  | case1 opened text content texts h =>
    unfold read
    rw [h]
    simp [texts, content, apply_ite]
  | case2 opened text content texts c h =>
    unfold read
    rw [h]
    simp [texts, content, apply_ite]
  | case3 opened text content texts _ c rest h stop hs =>
    unfold read
    rw [h]
    simp only
    rw [hs]
    simp [texts, content, apply_ite]
  | case4 opened text content texts _ c rest h step hs ih =>
    unfold read
    rw [h]
    simp only
    rw [hs]
    simp only [texts, content, Reading.after, List.map_append, List.map_cons, List.append_assoc, ← ih]
    split <;> simp

theorem map_kept (text : List Char) : (kept text).map Prod.fst = (events text).events := by
  unfold kept
  split
  · exact map_keeping ..
  · rename_i hn
    unfold events
    split
    · exact absurd rfl (hn _)
    · exact map_keeping ..

/-- An event leads from some open elements to others. -/
inductive Event.Leads : Event → (before behind : List (List Char)) → Prop
  | start (name : List Char) (opened : List (List Char)) : Leads (.start name) opened (name :: opened)
  | close (name : List Char) (opened : List (List Char)) : Leads (.close name) (name :: opened) opened
  | empty (opened : List (List Char)) : Leads .empty opened opened
  | text (content : List Char) (opened : List (List Char)) : Leads (.text content) opened opened
  | cdata (opened : List (List Char)) : Leads .cdata opened opened
  | aside (opened : List (List Char)) : Leads .aside opened opened

theorem leads_of_readConstruct {opened : List (List Char)} {text : List Char} {step : Step}
    (h : readConstruct opened text = .ok step) : step.event.Leads opened step.opened := by
  unfold readConstruct at h
  split at h
  · unfold readBang at h
    split at h
    · simp at h
    split at h
    · simp at h
    rename_i construct _
    simp only at h
    split at h
    · simp at h
    split at h
    · simp at h
    split at h
    · simp at h
    cases h
    cases construct
    · exact .aside _
    · exact .cdata _
    · exact .aside _
  · unfold readClose at h
    simp only at h
    split at h
    · simp at h
    split at h <;> cases h
    exact .close _ _
  · unfold readDeclaration at h
    simp only at h
    split at h <;> cases h
    exact .aside _
  · unfold readElement at h
    split at h
    · simp at h
    simp only at h
    split at h <;> cases h
    · exact .empty _
    · exact .start _ _

/-- Events lead from some open elements to others, with what is open behind each of them. -/
inductive Leads : (before : List (List Char)) → List (Event × List (List Char)) → (behind : List (List Char)) → Prop
  | nil {opened : List (List Char)} : Leads opened [] opened
  | cons {before opened behind : List (List Char)} {event : Event} {rest : List (Event × List (List Char))}
    (he : event.Leads before opened) (h : Leads opened rest behind) : Leads before ((event, opened) :: rest) behind

theorem exists_leads_keeping (opened : List (List Char)) (text : List Char) :
    ∃ behind, Leads opened (keeping opened text) behind := by
  fun_induction keeping opened text with
  | case1 opened text content texts | case2 opened text content texts | case3 opened text content texts =>
    refine ⟨opened, ?_⟩
    unfold texts
    split
    · exact .nil
    · exact .cons (.text _ _) .nil
  | case4 opened text content texts _ c rest h step hs ih =>
    obtain ⟨behind, ih⟩ := ih
    refine ⟨behind, ?_⟩
    have hstep := Leads.cons (leads_of_readConstruct hs) ih
    unfold texts
    split
    · exact hstep
    · exact .cons (.text _ _) hstep

theorem exists_leads_kept (text : List Char) : ∃ behind, Leads [] (kept text) behind := by
  unfold kept
  split <;> exact exists_leads_keeping ..

/-! ## What the check counts -/

section
variable {tally : Tally} {opened behind : List (List Char)} {kept : List (Event × List (List Char))}

theorem Tally.depth_root (tally : Tally) : tally.root.depth = tally.depth := by
  unfold root
  split <;> rfl

/-- An event is loose where it stands, or the count goes with the elements. -/
theorem Event.Leads.add {event : Event} (h : event.Leads opened behind) (hd : tally.depth = opened.length) :
    (∃ fault, tally.add event = .error fault ∧ fault ≠ .unbalancedClose) ∨
      ∃ next, tally.add event = .ok next ∧ next.depth = behind.length := by
  cases h with
  | start name => exact Or.inr ⟨_, rfl, by simp [hd]⟩
  | close name =>
    have hpos : tally.depth ≠ 0 := by simp [hd]
    exact Or.inr ⟨_, if_neg hpos, by simp [hd]⟩
  | empty => exact Or.inr ⟨_, rfl, by simp [Tally.depth_root, hd]⟩
  | text content =>
    by_cases hl : (tally.depth = 0 && !content.all fun c => c.isWhitespace || c = '\x0c') = true
    · exact Or.inl ⟨_, if_pos hl, by simp⟩
    · exact Or.inr ⟨_, if_neg hl, hd⟩
  | cdata =>
    by_cases hl : tally.depth = 0
    · exact Or.inl ⟨_, if_pos hl, by simp⟩
    · exact Or.inr ⟨_, if_neg hl, hd⟩
  | aside => exact Or.inr ⟨_, rfl, hd⟩

theorem Leads.foldlM (h : Leads opened kept behind) (hd : tally.depth = opened.length) :
    (∃ fault, (kept.map Prod.fst).foldlM Tally.add tally = .error fault ∧ fault ≠ .unbalancedClose) ∨
      ∃ next, (kept.map Prod.fst).foldlM Tally.add tally = .ok next ∧ next.depth = behind.length := by
  induction h generalizing tally with
  | nil => exact Or.inr ⟨tally, rfl, hd⟩
  | cons he _ ih =>
    rw [List.map_cons, List.foldlM_cons]
    rcases he.add hd with ⟨fault, hf, hne⟩ | ⟨next, hn, hd⟩
    · rw [hf]
      exact Or.inl ⟨fault, rfl, hne⟩
    · rw [hn]
      exact ih hd

theorem Leads.counted (h : Leads [] kept behind) :
    (∃ fault, (kept.map Prod.fst).foldlM Tally.add {} = .error fault ∧ fault ≠ .unbalancedClose) ∨
      ∃ tally, (kept.map Prod.fst).foldlM Tally.add {} = .ok tally ∧ tally.depth = behind.length :=
  h.foldlM rfl

theorem Leads.upTo {before after : List (Event × List (List Char))} {event : Event} {between : List (List Char)}
    (h : Leads opened (before ++ (event, between) :: after) behind) :
    Leads opened (before ++ [(event, between)]) between := by
  induction before generalizing opened with
  | nil =>
    cases h with
    | cons he _ => exact .cons he .nil
  | cons first before ih =>
    cases h with
    | cons he h => exact .cons he (ih h)

end

/-! ## One element -/

/-- What may stand around the element: blank text, and what carries no structure. -/
def Event.IsMargin : Event → Prop
  | .text content => ∀ c ∈ content, c ∈ [' ', '\t', '\n', '\r', '\x0c']
  | .aside => True
  | _ => False

/-- Elements that are open end by their own names, in order. -/
inductive Balanced : List Event → Prop
  | nil : Balanced []
  | text (content : List Char) {rest : List Event} (h : Balanced rest) : Balanced (.text content :: rest)
  | cdata {rest : List Event} (h : Balanced rest) : Balanced (.cdata :: rest)
  | aside {rest : List Event} (h : Balanced rest) : Balanced (.aside :: rest)
  | empty {rest : List Event} (h : Balanced rest) : Balanced (.empty :: rest)
  | element (name : List Char) {content rest : List Event} (hc : Balanced content) (h : Balanced rest) :
    Balanced (.start name :: (content ++ .close name :: rest))

inductive IsElement : List Event → Prop
  | empty : IsElement [.empty]
  | element (name : List Char) {content : List Event} (h : Balanced content) :
    IsElement (.start name :: (content ++ [.close name]))

/-- So many elements, with margins around them. -/
inductive Elements : Nat → List Event → Prop
  | nil : Elements 0 []
  | margin {n : Nat} {event : Event} {rest : List Event} (he : event.IsMargin) (h : Elements n rest) :
    Elements n (event :: rest)
  | element {n : Nat} {element rest : List Event} (he : IsElement element) (h : Elements n rest) :
    Elements (n + 1) (element ++ rest)

section
variable {events : List Event} {tally next : Tally}

theorem foldlM_add_cons {event : Event} (h : tally.add event = .ok next) (rest : List Event) :
    (event :: rest).foldlM Tally.add tally = rest.foldlM Tally.add next := by
  rw [List.foldlM_cons, h]
  rfl

theorem foldlM_add_append {front : List Event} (h : front.foldlM Tally.add tally = .ok next) (rest : List Event) :
    (front ++ rest).foldlM Tally.add tally = rest.foldlM Tally.add next := by
  rw [List.foldlM_append, h]
  rfl

theorem isMargin_text_iff {content : List Char} :
    (Event.text content).IsMargin ↔ (content.all fun c => c.isWhitespace || c = '\x0c') = true := by
  simp [Event.IsMargin, Char.isWhitespace, or_assoc, or_left_comm]

theorem Event.IsMargin.add {event : Event} (h : event.IsMargin) (tally : Tally) : tally.add event = .ok tally := by
  cases event with
  | text content =>
    rw [isMargin_text_iff] at h
    simp [Tally.add, h]
  | aside => rfl
  | _ => cases h

/-- Inside of an element, nothing is refused and nothing counted in the end. -/
theorem Balanced.foldlM (h : Balanced events) (depth roots : Nat) :
    events.foldlM Tally.add ⟨depth + 1, roots⟩ = .ok ⟨depth + 1, roots⟩ := by
  induction h generalizing depth with
  | nil => rfl
  | text content _ ih => exact ih depth
  | cdata _ ih => exact ih depth
  | aside _ ih => exact ih depth
  | empty _ ih => exact ih depth
  | element name _ _ ihc ih =>
    have hstart : Tally.add ⟨depth + 1, roots⟩ (.start name) = .ok ⟨depth + 1 + 1, roots⟩ := rfl
    have hclose : Tally.add ⟨depth + 1 + 1, roots⟩ (.close name) = .ok ⟨depth + 1, roots⟩ := rfl
    rw [foldlM_add_cons hstart, foldlM_add_append (ihc (depth + 1)), foldlM_add_cons hclose, ih]

theorem IsElement.foldlM (h : IsElement events) (roots : Nat) :
    events.foldlM Tally.add ⟨0, roots⟩ = .ok ⟨0, roots + 1⟩ := by
  cases h with
  | empty => rfl
  | element name h =>
    have hstart : Tally.add ⟨0, roots⟩ (.start name) = .ok ⟨0 + 1, roots + 1⟩ := rfl
    rw [foldlM_add_cons hstart, foldlM_add_append (h.foldlM 0 (roots + 1))]
    rfl

theorem Elements.foldlM {n : Nat} (h : Elements n events) (roots : Nat) :
    events.foldlM Tally.add ⟨0, roots⟩ = .ok ⟨0, roots + n⟩ := by
  induction h generalizing roots with
  | nil => rfl
  | margin he _ ih => rw [foldlM_add_cons (he.add _), ih]
  | @element n _ _ he _ ih => rw [foldlM_add_append (he.foldlM roots), ih, Nat.add_assoc, Nat.add_comm 1]

end

section
variable {opened behind : List (List Char)} {kept : List (Event × List (List Char))}

/-- What leads out of an element goes through its end. -/
theorem Leads.exists_close {name : List Char} (h : Leads (name :: opened) kept behind)
    (hl : behind.length ≤ opened.length) : ∃ content rest, kept = content ++ (.close name, opened) :: rest ∧
      Balanced (content.map Prod.fst) ∧ Leads opened rest behind := by
  -- An element inside is passed as a whole, so the induction is on the length of what is left.
  induction hn : kept.length using Nat.strongRecOn generalizing name opened kept with
  | _ n ih =>
    subst hn
    cases h with
    | nil => exact absurd hl (Nat.not_succ_le_self _)
    | @cons _ between _ event rest he h =>
      cases he with
      | close => exact ⟨[], rest, rfl, .nil, h⟩
      | start inner =>
        have hl' : behind.length ≤ (name :: opened).length := by simp; omega
        obtain ⟨content, more, rfl, hc, hm⟩ := ih _ (by simp) h hl' rfl
        obtain ⟨content', rest, rfl, hc', hr⟩ := ih _ (by simp; omega) hm hl rfl
        refine ⟨(.start inner, inner :: name :: opened) :: (content ++ (.close inner, name :: opened) :: content'),
          rest, by simp, ?_, hr⟩
        simpa using .element inner hc hc'
      | empty | text | cdata | aside =>
        obtain ⟨content, rest, rfl, hc, hr⟩ := ih _ (by simp) h hl rfl
        refine ⟨(_, name :: opened) :: content, rest, rfl, ?_, hr⟩
        first | exact .empty hc | exact .text _ hc | exact .cdata hc | exact .aside hc

/-- From the top back to the top there are elements and margins, if nothing is refused. -/
theorem Leads.elements {roots : Nat} {tally : Tally} (h : Leads [] kept [])
    (hf : (kept.map Prod.fst).foldlM Tally.add ⟨0, roots⟩ = .ok tally) :
    ∃ n, Elements n (kept.map Prod.fst) ∧ tally = ⟨0, roots + n⟩ := by
  induction hn : kept.length using Nat.strongRecOn generalizing roots kept with
  | _ n ih =>
    subst hn
    cases h with
    | nil =>
      cases hf
      exact ⟨0, .nil, rfl⟩
    | @cons _ between _ event rest he h =>
      have margin (he : event.IsMargin) (h : Leads [] rest []) :
          ∃ n, Elements n (event :: rest.map Prod.fst) ∧ tally = ⟨0, roots + n⟩ := by
        rw [List.map_cons, foldlM_add_cons (he.add _)] at hf
        obtain ⟨n, hr, ht⟩ := ih _ (by simp) h hf rfl
        exact ⟨n, .margin he hr, ht⟩
      have element {first more : List (Event × List (List Char))} (hk : (event, between) :: rest = first ++ more)
          (he : IsElement (first.map Prod.fst)) (h : Leads [] more []) (hl : more.length < rest.length + 1) :
          ∃ n, Elements n (event :: rest.map Prod.fst) ∧ tally = ⟨0, roots + n⟩ := by
        have hm : event :: rest.map Prod.fst = first.map Prod.fst ++ more.map Prod.fst := by
          simpa using congrArg (List.map Prod.fst) hk
        rw [List.map_cons, hm, foldlM_add_append (he.foldlM roots)] at hf
        obtain ⟨n, hr, ht⟩ := ih _ hl h hf rfl
        refine ⟨n + 1, ?_, by rw [ht, Nat.add_assoc, Nat.add_comm 1]⟩
        rw [hm]
        exact .element he hr
      cases he with
      | start name =>
        obtain ⟨content, more, rfl, hc, hm⟩ := h.exists_close (Nat.le_refl _)
        have hk : (.start name, [name]) :: (content ++ (.close name, []) :: more) =
            ((.start name, [name]) :: (content ++ [(.close name, [])])) ++ more := by simp
        refine element hk ?_ hm (by simp; omega)
        simpa using .element name hc
      | empty => exact element (List.singleton_append ..).symm .empty h (by simp)
      | text content =>
        by_cases hm : (Event.text content).IsMargin
        · exact margin hm h
        · rw [isMargin_text_iff] at hm
          have hloose : Tally.add ⟨0, roots⟩ (.text content) = .error .looseText := by simp [Tally.add, hm]
          rw [List.map_cons, List.foldlM_cons, hloose] at hf
          cases hf
      | cdata => cases hf
      | aside => exact margin trivial h

end

theorem Elements.forall_isMargin {events : List Event} (h : Elements 0 events) : ∀ event ∈ events, event.IsMargin := by
  generalize hn : 0 = n at h
  induction h with
  | nil => simp
  | margin he _ ih => simpa using ⟨he, ih hn⟩
  | element => cases hn

theorem Elements.append_margins {n : Nat} {margins rest : List Event} (hm : ∀ event ∈ margins, event.IsMargin)
    (h : Elements n rest) : Elements n (margins ++ rest) := by
  induction margins with
  | nil => exact h
  | cons event margins ih =>
    simp only [List.mem_cons, forall_eq_or_imp] at hm
    exact .margin hm.1 (ih hm.2)

/-- Margins, an element, and margins again. -/
def IsDocument (events : List Event) : Prop :=
  ∃ before element after, events = before ++ (element ++ after) ∧ (∀ event ∈ before, event.IsMargin) ∧
    IsElement element ∧ ∀ event ∈ after, event.IsMargin

theorem elements_one_iff {events : List Event} : Elements 1 events ↔ IsDocument events := by
  constructor
  · intro h
    generalize hn : 1 = n at h
    induction h with
    | nil => cases hn
    | @margin _ event _ he _ ih =>
      obtain ⟨before, element, after, rfl, hb, hm, ha⟩ := ih hn
      exact ⟨event :: before, element, after, rfl, by simpa using ⟨he, hb⟩, hm, ha⟩
    | @element n first rest he h _ =>
      obtain rfl : n = 0 := by omega
      exact ⟨[], first, rest, rfl, by simp, he, h.forall_isMargin⟩
  · intro ⟨before, element, after, he, hb, hm, ha⟩
    rw [he]
    apply Elements.append_margins hb
    apply Elements.element hm
    simpa using Elements.append_margins ha .nil

/-! ## The check -/

theorem judge_of_error {reading : Reading} {fault : Fault} (h : reading.events.foldlM Tally.add {} = .error fault) :
    reading.judge = .error fault := by
  unfold Reading.judge
  rw [h]
  rfl

/-- Where no event is refused, the reader's fault comes first, then the counts. -/
theorem judge_of_ok {reading : Reading} {tally : Tally} (h : reading.events.foldlM Tally.add {} = .ok tally) :
    reading.judge = match reading.fault with
      | some (fault, offset) => .error (.unreadable fault offset)
      | none =>
        if tally.depth ≠ 0 then .error .unclosed
        else if tally.roots = 0 then .error .noRoot
        else if tally.roots = 1 then .ok ()
        else .error .severalRoots := by
  unfold Reading.judge
  rw [h]
  obtain ⟨depth, roots⟩ := tally
  cases reading.fault with
  | some fault => rfl
  | none =>
    by_cases hd : depth = 0
    · subst hd
      match roots with
      | 0 => rfl
      | 1 => rfl
      | roots + 2 => rfl
    · simp [bind, Except.bind, hd]
      rfl

theorem judge_eq_ok_iff {reading : Reading} {tally : Tally} (h : reading.events.foldlM Tally.add {} = .ok tally) :
    reading.judge = .ok () ↔ reading.fault = none ∧ tally = ⟨0, 1⟩ := by
  rw [judge_of_ok h]
  obtain ⟨depth, roots⟩ := tally
  cases reading.fault with
  | some fault => simp
  | none =>
    by_cases hd : depth = 0
    · by_cases hr : roots = 1
      · simp [hd, hr]
      · by_cases h0 : roots = 0 <;> simp [hd, hr, h0]
    · simp [hd]

theorem validate_eq_ok_iff (text : List Char) :
    validate text = .ok () ↔ (events text).fault = none ∧ IsDocument (events text).events := by
  obtain ⟨behind, hk⟩ := exists_leads_kept text
  rw [← elements_one_iff, ← map_kept]
  constructor
  · intro hv
    rcases hk.counted with ⟨fault, hf, -⟩ | ⟨tally, hf, hd⟩
    · rw [validate, judge_of_error (by rwa [← map_kept])] at hv
      cases hv
    · obtain ⟨hn, rfl⟩ := (judge_eq_ok_iff (by rwa [← map_kept])).1 hv
      obtain rfl : behind = [] := List.length_eq_zero_iff.1 hd.symm
      obtain ⟨n, he, ht⟩ := hk.elements hf
      obtain rfl : n = 1 := by simpa using ht.symm
      exact ⟨hn, he⟩
  · intro ⟨hn, he⟩
    have hf := he.foldlM 0
    rw [map_kept] at hf
    exact (judge_eq_ok_iff hf).2 ⟨hn, rfl⟩

theorem validate_ne_unbalancedClose (text : List Char) : validate text ≠ .error .unbalancedClose := by
  obtain ⟨behind, hk⟩ := exists_leads_kept text
  intro hv
  rcases hk.counted with ⟨fault, hf, hne⟩ | ⟨tally, hf, -⟩
  · rw [validate, judge_of_error (by rwa [← map_kept])] at hv
    exact hne (Except.error.inj hv)
  · rw [validate, judge_of_ok (by rwa [← map_kept])] at hv
    split at hv
    · simp at hv
    · split at hv
      · simp at hv
      · split at hv
        · simp at hv
        · split at hv <;> simp at hv

/-- Behind each event that is counted, as many elements are open in the count as the reader keeps. So no closing tag
is ever one too many, and what is accepted is one element with margins around it. -/
theorem accepts_one_element (text : List Char) :
    (kept text).map Prod.fst = (events text).events ∧
    (∀ before event opened after tally, kept text = before ++ (event, opened) :: after →
      ((before ++ [(event, opened)]).map Prod.fst).foldlM Tally.add {} = .ok tally → tally.depth = opened.length) ∧
    validate text ≠ .error .unbalancedClose ∧
    (validate text = .ok () ↔ (events text).fault = none ∧ IsDocument (events text).events) := by
  refine ⟨map_kept text, ?_, validate_ne_unbalancedClose text, validate_eq_ok_iff text⟩
  intro before event opened after tally hk hf
  obtain ⟨behind, h⟩ := exists_leads_kept text
  rw [hk] at h
  rcases h.upTo.counted with ⟨fault, he, -⟩ | ⟨next, hn, hd⟩
  · cases he.symm.trans hf
  · cases hn.symm.trans hf
    exact hd

/-- An element in an element, behind a comment. -/
def nestedMarkup : List Char := "<!-- a --><b>1<i>2</i></b>".toList

theorem accepts_nestedMarkup :
    (∃ tally, [Event.aside, .start ['b'], .text ['1'], .start ['i']].foldlM Tally.add {} = .ok tally ∧
      tally.depth = [['i'], ['b']].length) ∧
    validate nestedMarkup = .ok () := by
  obtain ⟨-, hdepth, -, haccepts⟩ := accepts_one_element nestedMarkup
  constructor
  · have hk : kept nestedMarkup = [(.aside, []), (.start ['b'], [['b']]), (.text ['1'], [['b']])] ++
        (.start ['i'], [['i'], ['b']]) ::
          [(.text ['2'], [['i'], ['b']]), (.close ['i'], [['b']]), (.close ['b'], [])] := by
      decide +kernel
    exact ⟨⟨2, 1⟩, rfl, hdepth _ _ _ _ _ hk rfl⟩
  · apply haccepts.2
    have he : events nestedMarkup = ⟨[.aside, .start ['b'], .text ['1'], .start ['i'], .text ['2'], .close ['i'],
        .close ['b']], none⟩ := by
      decide +kernel
    rw [he]
    have hi : Balanced [.text ['1'], .start ['i'], .text ['2'], .close ['i']] :=
      .text _ (.element ['i'] (.text _ .nil) .nil)
    exact ⟨rfl, [.aside], _, [], rfl, by simp [Event.IsMargin], .element ['b'] hi, by simp⟩

end DotLang.Markup
