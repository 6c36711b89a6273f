import CpuLimit.Library.Getopt
import Mathlib.Data.List.TakeWhile

/-!
# The language of command lines

The ways to write an option, as values that can only be built where the specification knows
the option, and a command line as a list of them with the operands behind it. A scan reads
back what is written so, and a scan that comes to its end has read such a line.
-/
namespace CpuLimit.Library.Getopt

/-! ## The ways to write an option -/

/-- The last option of a cluster of short ones. The others take no arguments. -/
inductive Ending (spec : Spec)
  | flag (c : Char) (known : shortOption c spec.optstring = some false)
  | attached (c : Char) (arg : Arg) (known : shortOption c spec.optstring = some true)
      (nonempty : arg ≠ [])
  | next (c : Char) (arg : Arg) (known : shortOption c spec.optstring = some true)

variable {spec : Spec}

namespace Ending

/-- What stands in the element of the cluster. -/
def chars : Ending spec → List Char
  | flag c _ => [c]
  | attached c arg _ _ => c :: arg
  | next c _ _ => [c]

/-- What stands in the element after it. -/
def args : Ending spec → List Arg
  | flag _ _ => []
  | attached _ _ _ _ => []
  | next _ arg _ => [arg]

def found : Ending spec → Found
  | flag c _ => ⟨c, none⟩
  | attached c arg _ _ => ⟨c, some arg⟩
  | next c arg _ => ⟨c, some arg⟩

end Ending

structure Cluster (spec : Spec) where
  flags : List Char
  last : Ending spec
  known : ∀ c ∈ flags, shortOption c spec.optstring = some false

namespace Cluster

variable (cl : Cluster spec)

def chars : List Char := cl.flags ++ cl.last.chars

def found : List Found := cl.flags.map (⟨·, none⟩) ++ [cl.last.found]

end Cluster

/-- One or more options in one element, or in two. -/
inductive Word (spec : Spec)
  | short (cl : Cluster spec) (noDash : cl.chars.head? ≠ some '-')
  | long (name : Arg) (o : LongOption) (known : findLong name spec.longOptions = some o)
      (flag : o.hasArg = false) (named : name ≠ []) (noEquals : '=' ∉ name)
  | longEquals (name : Arg) (o : LongOption) (value : Arg)
      (known : findLong name spec.longOptions = some o) (hasArg : o.hasArg = true)
      (noEquals : '=' ∉ name)
  | longNext (name : Arg) (o : LongOption) (arg : Arg)
      (known : findLong name spec.longOptions = some o) (hasArg : o.hasArg = true)
      (named : name ≠ []) (noEquals : '=' ∉ name)

namespace Word

def render : Word spec → List Arg
  | short cl _ => ('-' :: cl.chars) :: cl.last.args
  | long name _ _ _ _ _ => ['-' :: '-' :: name]
  | longEquals name _ value _ _ _ => ['-' :: '-' :: (name ++ '=' :: value)]
  | longNext name _ arg _ _ _ _ => ['-' :: '-' :: name, arg]

def found : Word spec → List Found
  | short cl _ => cl.found
  | long _ o _ _ _ _ => [⟨o.val, none⟩]
  | longEquals _ o value _ _ _ => [⟨o.val, some value⟩]
  | longNext _ o arg _ _ _ _ => [⟨o.val, some arg⟩]

end Word

/-- An element that ends the options. -/
def IsOperand (arg : Arg) : Prop := arg.head? ≠ some '-' ∨ arg = ['-']

/-- The operands, with two dashes in front of them or without. -/
inductive Operands
  | dashed (operands : List Arg)
  | bare (operands : List Arg) (ends : ∀ arg ∈ operands.head?, IsOperand arg)

namespace Operands

def render : Operands → List Arg
  | dashed operands => ['-', '-'] :: operands
  | bare operands _ => operands

def operands : Operands → List Arg
  | dashed operands => operands
  | bare operands _ => operands

end Operands

/-- A command line behind the name of the program. -/
structure Line (spec : Spec) where
  words : List (Word spec)
  rest : Operands

namespace Line

variable (line : Line spec)

def render : List Arg := line.words.flatMap Word.render ++ line.rest.render

def found : List Found := line.words.flatMap Word.found

def operands : List Arg := line.rest.operands

end Line

/-! ## Scans -/

/-- The calls find these options on the way from one state to another. -/
inductive Leads (spec : Spec) : State → List Found → State → Prop
  | refl (st : State) : Leads spec st [] st
  | step {st mid last : State} {f : Found} {found : List Found}
      (hcall : getoptLong spec st = .option f mid) (hrest : Leads spec mid found last) :
      Leads spec st (f :: found) last

theorem Leads.single {st mid : State} {f : Found} (h : getoptLong spec st = .option f mid) :
    Leads spec st [f] mid := .step h (.refl mid)

theorem Leads.trans {st mid last : State} {found later : List Found}
    (h : Leads spec st found mid) (h' : Leads spec mid later last) :
    Leads spec st (found ++ later) last := by
  induction h with
  | refl _ => exact h'
  | step hcall _ ih => exact .step hcall (ih h')

/-! ## What is written is read -/

theorem scanShort_ending (last : Ending spec) {c : Char} {cluster : List Char}
    (hchars : last.chars = c :: cluster) (args : List Arg) :
    scanShort spec c cluster (last.args ++ args) = .option last.found ⟨[], args⟩ := by
  cases last with
  | flag d known =>
    cases hchars
    rw [scanShort, known]
    rfl
  | attached d arg known nonempty =>
    cases hchars
    rw [scanShort, known]
    dsimp only
    rw [if_neg nonempty]
    rfl
  | next d arg known =>
    cases hchars
    rw [scanShort, known]
    rfl

theorem Ending.exists_chars (last : Ending spec) : ∃ c cluster, last.chars = c :: cluster := by
  cases last <;> exact ⟨_, _, rfl⟩

/-- A cluster is read character by character. The induction is over the flags. -/
theorem Cluster.leads (cl : Cluster spec) (args : List Arg) :
    Leads spec ⟨cl.chars, cl.last.args ++ args⟩ cl.found ⟨[], args⟩ := by
  obtain ⟨flags, last, known⟩ := cl
  induction flags with
  | nil =>
    obtain ⟨c, cluster, hchars⟩ := last.exists_chars
    have hcall : getoptLong spec ⟨last.chars, last.args ++ args⟩ =
        .option last.found ⟨[], args⟩ := by
      rw [hchars]
      exact scanShort_ending last hchars args
    exact .single hcall
  | cons c flags ih =>
    rw [List.forall_mem_cons] at known
    have hcall : getoptLong spec ⟨c :: (flags ++ last.chars), last.args ++ args⟩ =
        .option ⟨c, none⟩ ⟨flags ++ last.chars, last.args ++ args⟩ := by
      change scanShort spec c (flags ++ last.chars) (last.args ++ args) = _
      rw [scanShort, known.1]
    exact .step hcall (ih known.2)

theorem getoptLong_short {c : Char} (hc : c ≠ '-') (cluster : List Char) (args : List Arg) :
    getoptLong spec ⟨[], ('-' :: c :: cluster) :: args⟩ = scanShort spec c cluster args := by
  unfold getoptLong
  dsimp only
  split <;> simp_all

theorem getoptLong_long {text : Arg} (htext : text ≠ []) (args : List Arg) :
    getoptLong spec ⟨[], ('-' :: '-' :: text) :: args⟩ = scanLong spec text args := by
  cases text with
  | nil => exact absurd rfl htext
  | cons c text => rfl

theorem split_name {name : Arg} (hname : '=' ∉ name) (rest : List Char) :
    (name ++ rest).takeWhile (· ≠ '=') = name ++ rest.takeWhile (· ≠ '=') ∧
      (name ++ rest).dropWhile (· ≠ '=') = rest.dropWhile (· ≠ '=') := by
  have hall : ∀ c ∈ name, decide (c ≠ '=') = true := by
    intro c hc
    rw [decide_eq_true_eq]
    rintro rfl
    exact hname hc
  exact ⟨List.takeWhile_append_of_pos hall, List.dropWhile_append_of_pos hall⟩

/-- A long option without an equals sign. -/
theorem scanLong_name {name : Arg} (noEquals : '=' ∉ name) {o : LongOption}
    (known : findLong name spec.longOptions = some o) (args : List Arg) :
    scanLong spec name args =
      if o.hasArg then takeNext o.val args else .option ⟨o.val, none⟩ ⟨[], args⟩ := by
  obtain ⟨htake, hdrop⟩ := split_name noEquals []
  rw [List.append_nil, List.takeWhile_nil, List.append_nil] at htake
  rw [List.append_nil, List.dropWhile_nil] at hdrop
  rw [scanLong, htake, known]
  dsimp only
  rw [hdrop]

theorem scanLong_equals {name : Arg} (noEquals : '=' ∉ name) (value : Arg) {o : LongOption}
    (known : findLong name spec.longOptions = some o) (hasArg : o.hasArg = true)
    (args : List Arg) :
    scanLong spec (name ++ '=' :: value) args = .option ⟨o.val, some value⟩ ⟨[], args⟩ := by
  obtain ⟨htake, hdrop⟩ := split_name noEquals ('=' :: value)
  rw [List.takeWhile_cons_of_neg (by simp), List.append_nil] at htake
  rw [List.dropWhile_cons_of_neg (by simp)] at hdrop
  rw [scanLong, htake, known]
  dsimp only
  rw [hdrop]
  dsimp only
  rw [if_pos hasArg]

/-- States with the same next call lead to the same options. -/
theorem Leads.of_call {st st' last : State} {f : Found} {found : List Found}
    (hcall : getoptLong spec st = getoptLong spec st')
    (h : Leads spec st' (f :: found) last) : Leads spec st (f :: found) last := by
  cases h with
  | step hnext hrest => exact .step (hcall.trans hnext) hrest

theorem Cluster.exists_found (cl : Cluster spec) : ∃ f found, cl.found = f :: found := by
  obtain ⟨flags, last, known⟩ := cl
  cases flags <;> exact ⟨_, _, rfl⟩

theorem Cluster.exists_chars (cl : Cluster spec) : ∃ c cluster, cl.chars = c :: cluster := by
  obtain ⟨flags, last, known⟩ := cl
  cases flags with
  | nil => exact last.exists_chars
  | cons c flags => exact ⟨_, _, rfl⟩

/-- A word is read whole, whatever follows. -/
theorem Word.leads (w : Word spec) (args : List Arg) :
    Leads spec ⟨[], w.render ++ args⟩ w.found ⟨[], args⟩ := by
  cases w with
  | short cl noDash =>
    obtain ⟨c, cluster, hchars⟩ := cl.exists_chars
    obtain ⟨f, found, hfound⟩ := cl.exists_found
    have hleads := cl.leads args
    rw [hchars, List.head?_cons, ne_eq, Option.some.injEq] at noDash
    rw [hchars, hfound] at hleads
    rw [render, Word.found, hchars, hfound]
    exact .of_call (getoptLong_short noDash cluster (cl.last.args ++ args)) hleads
  | long name o known flag named noEquals =>
    refine .single ((getoptLong_long named args).trans ?_)
    rw [scanLong_name noEquals known, flag]
    rfl
  | longEquals name o value known hasArg noEquals =>
    refine .single ((getoptLong_long (by simp) args).trans ?_)
    exact scanLong_equals noEquals value known hasArg args
  | longNext name o arg known hasArg named noEquals =>
    refine .single ((getoptLong_long named (arg :: args)).trans ?_)
    rw [scanLong_name noEquals known, if_pos hasArg]
    rfl

theorem Word.leads_words (words : List (Word spec)) (args : List Arg) :
    Leads spec ⟨[], words.flatMap render ++ args⟩ (words.flatMap found) ⟨[], args⟩ := by
  induction words with
  | nil => exact .refl _
  | cons w words ih =>
    rw [List.flatMap_cons, List.flatMap_cons, List.append_assoc]
    exact (w.leads _).trans ih

theorem getoptLong_operand {args : List Arg} (ends : ∀ arg ∈ args.head?, IsOperand arg) :
    getoptLong spec ⟨[], args⟩ = .done args := by
  rcases args with _ | ⟨arg, args⟩
  · rfl
  · rcases ends arg rfl with hhead | rfl
    · rcases arg with _ | ⟨c, arg⟩
      · rfl
      · rw [List.head?_cons, ne_eq, Option.some.injEq] at hhead
        unfold getoptLong
        dsimp only
        split <;> simp_all
    · rfl

theorem Operands.done (rest : Operands) :
    getoptLong spec ⟨[], rest.render⟩ = .done rest.operands := by
  cases rest with
  | dashed operands => rfl
  | bare operands ends => exact getoptLong_operand ends

theorem Line.leads (line : Line spec) :
    Leads spec ⟨[], line.render⟩ line.found ⟨[], line.rest.render⟩ :=
  Word.leads_words line.words line.rest.render

/-! ## What is read was written -/

/-- The state is what is left of a cluster, if one has been begun, in front of a line. -/
structure Reads (cluster : Option (Cluster spec)) (line : Line spec) (st : State)
    (found : List Found) (operands : List Arg) : Prop where
  nextchar_eq : st.nextchar = (cluster.map Cluster.chars).getD []
  args_eq : st.args = (cluster.map fun cl => cl.last.args).getD [] ++ line.render
  found_eq : found = (cluster.map Cluster.found).getD [] ++ line.found
  operands_eq : operands = line.operands

/-- The element of a state at which no cluster has been begun. -/
theorem args_cases (args : List Arg) :
    (∃ rest : Operands, args = rest.render) ∨
      (∃ text later, text ≠ [] ∧ args = ('-' :: '-' :: text) :: later) ∨
        ∃ c cluster later, c ≠ '-' ∧ args = ('-' :: c :: cluster) :: later := by
  rcases args with _ | ⟨arg, later⟩
  · exact Or.inl ⟨.bare [] (by simp), rfl⟩
  rcases arg with _ | ⟨c, arg⟩
  · exact Or.inl ⟨.bare ([] :: later) (by simp [IsOperand]), rfl⟩
  by_cases hc : c = '-'
  · subst hc
    rcases arg with _ | ⟨d, arg⟩
    · exact Or.inl ⟨.bare (['-'] :: later) (by simp [IsOperand]), rfl⟩
    · by_cases hd : d = '-'
      · subst hd
        rcases arg with _ | ⟨e, text⟩
        · exact Or.inl ⟨.dashed later, rfl⟩
        · exact Or.inr (Or.inl ⟨e :: text, later, List.cons_ne_nil _ _, rfl⟩)
      · exact Or.inr (Or.inr ⟨d, arg, later, hd, rfl⟩)
  · exact Or.inl ⟨.bare ((c :: arg) :: later) (by simp [IsOperand, hc]), rfl⟩

theorem scanShort_ne_done (c : Char) (cluster : List Char) (args operands : List Arg) :
    scanShort spec c cluster args ≠ .done operands := by
  unfold scanShort
  split
  · exact Result.noConfusion
  · exact Result.noConfusion
  · split_ifs
    · cases args <;> exact Result.noConfusion
    · exact Result.noConfusion

theorem scanLong_ne_done (text : Arg) (args operands : List Arg) :
    scanLong spec text args ≠ .done operands := by
  unfold scanLong
  split
  · exact Result.noConfusion
  · split
    · split_ifs <;> exact Result.noConfusion
    · split_ifs
      · cases args <;> exact Result.noConfusion
      · exact Result.noConfusion

/-- A scan that is over has the operands before it. -/
theorem reads_of_done {st : State} {operands : List Arg}
    (h : getoptLong spec st = .done operands) :
    ∃ line : Line spec, Reads none line st [] operands := by
  obtain ⟨nextchar, args⟩ := st
  rcases nextchar with _ | ⟨c, cluster⟩
  · rcases args_cases args with
      ⟨rest, rfl⟩ | ⟨text, later, htext, rfl⟩ | ⟨c, cluster, later, hc, rfl⟩
    · rw [rest.done, Result.done.injEq] at h
      exact ⟨⟨[], rest⟩, rfl, rfl, rfl, h.symm⟩
    · rw [getoptLong_long htext] at h
      exact absurd h (scanLong_ne_done text later operands)
    · rw [getoptLong_short hc] at h
      exact absurd h (scanShort_ne_done c cluster later operands)
  · exact absurd h (scanShort_ne_done c cluster args operands)

/-- Where no cluster has been begun there is only a line. -/
theorem Reads.cluster_eq_none {k : Option (Cluster spec)} {line : Line spec} {args : List Arg}
    {found : List Found} {operands : List Arg} (h : Reads k line ⟨[], args⟩ found operands) :
    k = none := by
  cases k with
  | none => rfl
  | some cl =>
    obtain ⟨c, cluster, hchars⟩ := cl.exists_chars
    have hnext := h.nextchar_eq
    rw [Option.map_some, Option.getD_some, hchars] at hnext
    cases hnext

/-- A short option has the rest of its cluster behind it. -/
theorem reads_of_scanShort {c : Char} {cluster : List Char} {args : List Arg} {f : Found}
    {mid : State} (h : scanShort spec c cluster args = .option f mid)
    {k : Option (Cluster spec)} {line : Line spec} {found : List Found} {operands : List Arg}
    (hmid : Reads k line mid found operands) :
    ∃ cl : Cluster spec, Reads (some cl) line ⟨c :: cluster, args⟩ (f :: found) operands := by
  unfold scanShort at h
  split at h
  · cases h
  · next known =>
    cases h
    obtain ⟨hnext, hargs, hfound, hoperands⟩ := hmid
    cases k with
    | none =>
      refine ⟨⟨[], .flag c known, by simp⟩, ?_, hargs, ?_, hoperands⟩
      · exact congrArg (c :: ·) hnext
      · exact congrArg (⟨c, none⟩ :: ·) hfound
    | some cl =>
      refine ⟨⟨c :: cl.flags, cl.last, List.forall_mem_cons.mpr ⟨known, cl.known⟩⟩, ?_, hargs, ?_,
        hoperands⟩
      · exact congrArg (c :: ·) hnext
      · exact congrArg (⟨c, none⟩ :: ·) hfound
  · next known =>
    split_ifs at h with hcluster
    · cases args with
      | nil => cases h
      | cons arg args =>
        cases h
        obtain rfl := hmid.cluster_eq_none
        obtain ⟨-, hargs, hfound, hoperands⟩ := hmid
        refine ⟨⟨[], .next c arg known, by simp⟩, ?_, ?_, ?_, hoperands⟩
        · exact congrArg (c :: ·) hcluster
        · exact congrArg (arg :: ·) hargs
        · exact congrArg (⟨c, some arg⟩ :: ·) hfound
    · cases h
      obtain rfl := hmid.cluster_eq_none
      obtain ⟨-, hargs, hfound, hoperands⟩ := hmid
      exact ⟨⟨[], .attached c cluster known hcluster, by simp⟩, rfl, hargs,
        congrArg (⟨c, some cluster⟩ :: ·) hfound, hoperands⟩

/-- A long option is a word. -/
theorem reads_of_scanLong {text : Arg} (htext : text ≠ []) {args : List Arg} {f : Found}
    {mid : State} (h : scanLong spec text args = .option f mid)
    {k : Option (Cluster spec)} {line : Line spec} {found : List Found} {operands : List Arg}
    (hmid : Reads k line mid found operands) :
    ∃ w : Word spec, Reads none ⟨w :: line.words, line.rest⟩ ⟨[], ('-' :: '-' :: text) :: args⟩
      (f :: found) operands := by
  have hsplit := List.takeWhile_append_dropWhile (p := (· ≠ '=')) (l := text)
  have noEquals : '=' ∉ text.takeWhile (· ≠ '=') := by
    intro hmem
    simpa using List.mem_takeWhile_imp hmem
  unfold scanLong at h
  split at h
  · cases h
  · next o known =>
    split at h
    · next e value hdrop =>
      split_ifs at h with hasArg
      cases h
      obtain rfl := hmid.cluster_eq_none
      obtain ⟨-, hargs, hfound, hoperands⟩ := hmid
      have he : e = '=' := by
        have hhead := List.head?_dropWhile_not (· ≠ '=') text
        rw [hdrop] at hhead
        simpa using hhead
      rw [hdrop, he] at hsplit
      refine ⟨.longEquals _ o value known hasArg noEquals, rfl, ?_, ?_, hoperands⟩
      · have hrender : (Word.longEquals _ o value known hasArg noEquals).render =
            [ '-' :: '-' :: text] := by
          rw [Word.render, hsplit]
        rw [Option.map_none, Option.getD_none, List.nil_append, Line.render, List.flatMap_cons,
          hrender, List.append_assoc]
        exact congrArg (('-' :: '-' :: text) :: ·) hargs
      · exact congrArg (⟨o.val, some value⟩ :: ·) hfound
    · next hdrop =>
      rw [hdrop, List.append_nil] at hsplit
      rw [hsplit] at known noEquals
      split_ifs at h with hasArg
      · cases args with
        | nil => cases h
        | cons arg args =>
          cases h
          obtain rfl := hmid.cluster_eq_none
          obtain ⟨-, hargs, hfound, hoperands⟩ := hmid
          refine ⟨.longNext text o arg known hasArg htext noEquals, rfl, ?_, ?_, hoperands⟩
          · exact congrArg (fun rest => ('-' :: '-' :: text) :: arg :: rest) hargs
          · exact congrArg (⟨o.val, some arg⟩ :: ·) hfound
      · cases h
        obtain rfl := hmid.cluster_eq_none
        obtain ⟨-, hargs, hfound, hoperands⟩ := hmid
        refine ⟨.long text o known (Bool.not_eq_true _ ▸ hasArg) htext noEquals, rfl, ?_, ?_,
          hoperands⟩
        · exact congrArg (('-' :: '-' :: text) :: ·) hargs
        · exact congrArg (⟨o.val, none⟩ :: ·) hfound

/-- A cluster behind a dash is a word. -/
theorem Reads.dash {cl : Cluster spec} {line : Line spec} {c : Char} {cluster : List Char}
    (hc : c ≠ '-') {args : List Arg} {found : List Found} {operands : List Arg}
    (h : Reads (some cl) line ⟨c :: cluster, args⟩ found operands) :
    ∃ w : Word spec, Reads none ⟨w :: line.words, line.rest⟩ ⟨[], ('-' :: c :: cluster) :: args⟩
      found operands := by
  obtain ⟨hnext, hargs, hfound, hoperands⟩ := h
  have hchars : c :: cluster = cl.chars := hnext
  have noDash : cl.chars.head? ≠ some '-' := by simp [← hchars, hc]
  refine ⟨.short cl noDash, rfl, ?_, ?_, hoperands⟩
  · rw [Option.map_none, Option.getD_none, List.nil_append, Line.render, List.flatMap_cons,
      Word.render, List.append_assoc, List.cons_append, ← hchars]
    exact congrArg (('-' :: c :: cluster) :: ·) hargs
  · rw [hfound]
    rfl

/-- A scan that comes to its end has read a line. The induction is over the calls. -/
theorem Leads.reads {st last : State} {found : List Found} (h : Leads spec st found last)
    {operands : List Arg} (hdone : getoptLong spec last = .done operands) :
    ∃ (k : Option (Cluster spec)) (line : Line spec), Reads k line st found operands := by
  induction h with
  | refl st =>
    obtain ⟨line, hline⟩ := reads_of_done hdone
    exact ⟨none, line, hline⟩
  | @step st mid last f found hcall hrest ih =>
    obtain ⟨k, line, hmid⟩ := ih hdone
    obtain ⟨nextchar, args⟩ := st
    rcases nextchar with _ | ⟨c, cluster⟩
    · rcases args_cases args with
        ⟨rest, rfl⟩ | ⟨text, later, htext, rfl⟩ | ⟨c, cluster, later, hc, rfl⟩
      · rw [rest.done] at hcall
        cases hcall
      · rw [getoptLong_long htext] at hcall
        obtain ⟨w, hw⟩ := reads_of_scanLong htext hcall hmid
        exact ⟨none, _, hw⟩
      · rw [getoptLong_short hc] at hcall
        obtain ⟨cl, hcl⟩ := reads_of_scanShort hcall hmid
        obtain ⟨w, hw⟩ := hcl.dash hc
        exact ⟨none, _, hw⟩
    · obtain ⟨cl, hcl⟩ := reads_of_scanShort hcall hmid
      exact ⟨some cl, line, hcl⟩

/-- The elements in front of which a whole scan began are a line. -/
theorem Leads.exists_line {args : List Arg} {last : State} {found : List Found}
    (h : Leads spec ⟨[], args⟩ found last) {operands : List Arg}
    (hdone : getoptLong spec last = .done operands) :
    ∃ line : Line spec, line.render = args ∧ line.found = found ∧ line.operands = operands := by
  obtain ⟨k, line, hreads⟩ := h.reads hdone
  obtain rfl := hreads.cluster_eq_none
  exact ⟨line, hreads.args_eq.symm, hreads.found_eq.symm, hreads.operands_eq.symm⟩

end CpuLimit.Library.Getopt
