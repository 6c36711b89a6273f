import CpuLimit.Arguments
import CpuLimit.Library.OptionGrammar

/-!
# The command lines of the program

`main` takes the lines of its option grammar and no others, and what it makes of a line
depends on the options that are written there and not on the way they are written.
-/
namespace CpuLimit.Arguments

open Library Library.Getopt

/-- What `main` makes of a line, up to its validation. -/
def readLine (host : Host) (line : Line spec) : Except Rejection Settings :=
  (line.found.foldlM (handleOption host) {}).bind fun v => validate host v line.operands

variable {host : Host}

/-- The loop handles one option after the other. The induction is over the calls. -/
theorem parseOptions_of_leads {st last : State} {found : List Found}
    (h : Leads spec st found last) {operands : List Arg}
    (hdone : getoptLong spec last = .done operands) {fuel : ℕ} (hfuel : st.size < fuel)
    (v : Variables) :
    parseOptions host fuel v st =
      some ((found.foldlM (handleOption host) v).map fun w => (w, operands)) := by
  induction h generalizing fuel v with
  | refl st =>
    obtain ⟨fuel, rfl⟩ := Nat.exists_eq_add_of_le' (Nat.one_le_of_lt hfuel)
    rw [parseOptions, hdone]
    rfl
  | @step st mid last f found hcall hrest ih =>
    obtain ⟨fuel, rfl⟩ := Nat.exists_eq_add_of_le' (Nat.one_le_of_lt hfuel)
    have hsize := getoptLong_size hcall
    rw [parseOptions, hcall]
    dsimp only
    rw [List.foldlM_cons]
    cases handleOption host v f with
    | error rejection => rfl
    | ok w => exact ih hdone (by omega) w

/-- A loop that rejects nothing has come to the operands. -/
theorem leads_of_parseOptions {fuel : ℕ} {v w : Variables} {st : State} {operands : List Arg}
    (h : parseOptions host fuel v st = some (.ok (w, operands))) :
    ∃ found last, Leads spec st found last ∧ getoptLong spec last = .done operands := by
  induction fuel generalizing v st with
  | zero => cases h
  | succ fuel ih =>
    rw [parseOptions] at h
    cases hcall : getoptLong spec st with
    | unknown => simp [hcall] at h
    | done rest =>
      simp only [hcall, Option.some.injEq, Except.ok.injEq, Prod.mk.injEq] at h
      exact ⟨[], st, .refl st, by rw [hcall, h.2]⟩
    | option f rest =>
      cases hstep : handleOption host v f with
      | error rejection => simp [hcall, hstep] at h
      | ok u =>
        simp only [hcall, hstep] at h
        obtain ⟨found, last, hleads, hdone⟩ := ih h
        exact ⟨f :: found, last, .step hcall hleads, hdone⟩

theorem arguments_of_leads {argv : List Arg} {found : List Found} {last : State}
    (h : Leads spec (start argv) found last) {operands : List Arg}
    (hdone : getoptLong spec last = .done operands) :
    arguments host argv =
      some ((found.foldlM (handleOption host) {}).bind fun v => validate host v operands) := by
  rw [arguments, parseOptions_of_leads h hdone (Nat.lt_succ_self _), Option.map_some]
  cases found.foldlM (handleOption host) {} <;> rfl

theorem arguments_of_line (program : Arg) (line : Line spec) :
    arguments host (program :: line.render) = some (readLine host line) := by
  have hleads : Leads spec (start (program :: line.render)) line.found ⟨[], line.rest.render⟩ :=
    line.leads
  exact arguments_of_leads hleads line.rest.done

/-- Every line of the grammar is read option by option, and every argument vector that is
accepted is such a line. -/
theorem acceptsLines (host : Host) :
    (∀ program (line : Line spec),
      arguments host (program :: line.render) = some (readLine host line)) ∧
    ∀ argv s, arguments host argv = some (.ok s) →
      ∃ line : Line spec, line.render = argv.tail ∧ readLine host line = .ok s := by
  refine ⟨arguments_of_line, fun argv s h => ?_⟩
  obtain ⟨parsed, hrun, hbind⟩ := Option.map_eq_some_iff.mp h
  cases parsed with
  | error rejection => cases hbind
  | ok result =>
    obtain ⟨v, operands⟩ := result
    obtain ⟨found, last, hleads, hdone⟩ := leads_of_parseOptions hrun
    have harguments : arguments host argv = _ := arguments_of_leads hleads hdone
    obtain ⟨line, hrender, hfound, hoperands⟩ := hleads.exists_line hdone
    refine ⟨line, hrender, ?_⟩
    rw [h, Option.some.injEq] at harguments
    rw [readLine, hfound, hoperands, ← harguments]

/-! ## The order of the options -/

/-- The variables that options without arguments set. -/
structure Flagged (found : List Found) (v : Variables) : Prop where
  verbose : v.verbose = found.any (·.val = 'v')
  lazy : v.lazy = found.any (·.val = 'z')
  includeChildren : v.includeChildren = found.any (·.val = 'i')

theorem Flagged.handleOption {found : List Found} {v v' : Variables} {f : Found}
    (h : Flagged found v) (hstep : handleOption host v f = .ok v') :
    Flagged (found ++ [f]) v' := by
  obtain ⟨val, optarg⟩ := f
  unfold Arguments.handleOption at hstep
  split_ifs at hstep
  dsimp only at hstep
  split at hstep <;> cases hstep
  all_goals
    constructor <;> simp [h.verbose, h.lazy, h.includeChildren]

/-- After the options the variables hold what these say, and nothing else. -/
theorem parsed_foldlM {found later : List Found} {v w : Variables}
    (hparsed : Parsed host.rounding found v) (hflagged : Flagged found v)
    (h : later.foldlM (handleOption host) v = .ok w) :
    Parsed host.rounding (found ++ later) w ∧ Flagged (found ++ later) w := by
  induction later generalizing found v with
  | nil =>
    cases h
    rw [List.append_nil]
    exact ⟨hparsed, hflagged⟩
  | cons f later ih =>
    rw [List.foldlM_cons] at h
    cases hstep : handleOption host v f with
    | error rejection =>
      rw [hstep] at h
      cases h
    | ok u =>
      rw [hstep] at h
      rw [List.append_cons]
      exact ih (hparsed.handleOption hstep) (hflagged.handleOption hstep) h

/-- Whether an option is rejected does not depend on those before it. -/
theorem handleOption_isOk (v v' : Variables) (f : Found) :
    (handleOption host v f).isOk = (handleOption host v' f).isOk := by
  unfold handleOption
  split_ifs
  · rfl
  · split <;> rfl

theorem foldlM_isOk (found : List Found) (v : Variables) :
    (found.foldlM (handleOption host) v).isOk =
      found.all fun f => (handleOption host {} f).isOk := by
  induction found generalizing v with
  | nil => rfl
  | cons f found ih =>
    rw [List.foldlM_cons, List.all_cons, handleOption_isOk {} v]
    cases hstep : handleOption host v f with
    | error rejection => rfl
    | ok w => exact ih w

/-- The options of every letter are the same, in the same order. -/
def SameOptions (found found' : List Found) : Prop :=
  ∀ c, found.filter (·.val = c) = found'.filter (·.val = c)

namespace SameOptions

variable {found found' : List Found}

theorem symm (h : SameOptions found found') : SameOptions found' found := fun c => (h c).symm

theorem mem_iff (h : SameOptions found found') (f : Found) : f ∈ found ↔ f ∈ found' := by
  have hmem : ∀ l : List Found, f ∈ l ↔ f ∈ l.filter (·.val = f.val) := fun l => by simp
  rw [hmem found, h f.val, ← hmem found']

theorem lastArgument_eq (h : SameOptions found found') (c : Char) :
    lastArgument c found = lastArgument c found' := by
  rw [lastArgument, h c, lastArgument]

theorem any_eq (h : SameOptions found found') (p : Found → Bool) : found.any p = found'.any p := by
  rw [Bool.eq_iff_iff, List.any_eq_true, List.any_eq_true]
  simp only [h.mem_iff]

theorem all_eq (h : SameOptions found found') (p : Found → Bool) : found.all p = found'.all p := by
  rw [Bool.eq_iff_iff, List.all_eq_true, List.all_eq_true]
  simp only [h.mem_iff]

/-- The same options come to the same variables. -/
theorem variables_eq (h : SameOptions found found') {v v' : Variables}
    (hparsed : Parsed host.rounding found v) (hflagged : Flagged found v)
    (hparsed' : Parsed host.rounding found' v') (hflagged' : Flagged found' v') : v = v' := by
  have hpid := hparsed.pid.trans ((h.lastArgument_eq 'p') ▸ hparsed'.pid.symm)
  have hlimit := hparsed.limit.trans ((h.lastArgument_eq 'l') ▸ hparsed'.limit.symm)
  have hexe := hparsed.exe.trans ((h.lastArgument_eq 'e') ▸ hparsed'.exe.symm)
  have hexeOk := hparsed.exeOk.trans ((h.lastArgument_eq 'e') ▸ hparsed'.exeOk.symm)
  have hverbose := hflagged.verbose.trans ((h.any_eq _).trans hflagged'.verbose.symm)
  have hlazy := hflagged.lazy.trans ((h.any_eq _).trans hflagged'.lazy.symm)
  have hchildren := hflagged.includeChildren.trans
    ((h.any_eq _).trans hflagged'.includeChildren.symm)
  rw [Prod.mk.injEq] at hpid hlimit
  cases v
  cases v'
  simp_all

theorem foldlM_ok (h : SameOptions found found') {v : Variables}
    (hrun : found.foldlM (handleOption host) {} = .ok v) :
    found'.foldlM (handleOption host) {} = .ok v := by
  have hok : (found'.foldlM (handleOption host) {}).isOk = true := by
    rw [foldlM_isOk, ← h.all_eq, ← foldlM_isOk found {}, hrun]
    rfl
  cases hrun' : found'.foldlM (handleOption host) {} with
  | error rejection =>
    rw [hrun'] at hok
    cases hok
  | ok v' =>
    have hflagged : Flagged [] {} := ⟨rfl, rfl, rfl⟩
    obtain ⟨hp, hf⟩ := parsed_foldlM (parsed_initial host.rounding) hflagged hrun
    obtain ⟨hp', hf'⟩ := parsed_foldlM (parsed_initial host.rounding) hflagged hrun'
    rw [h.variables_eq hp hf hp' hf']

theorem readLine_ok {line line' : Line spec} (h : SameOptions line.found line'.found)
    (hoperands : line.operands = line'.operands) {s : Settings}
    (hread : readLine host line = .ok s) : readLine host line' = .ok s := by
  rw [readLine] at hread ⊢
  cases hrun : line.found.foldlM (handleOption host) {} with
  | error rejection =>
    rw [hrun] at hread
    cases hread
  | ok v =>
    rw [hrun] at hread
    rw [h.foldlM_ok hrun, ← hoperands]
    exact hread

end SameOptions

/-- Lines with the same options and operands are accepted alike, in whichever order options
of different letters stand and however each of them is written. -/
theorem spellingsAgree (host : Host) {line line' : Line spec}
    (hsame : SameOptions line.found line'.found) (hoperands : line.operands = line'.operands)
    (program program' : Arg) (s : Settings) :
    arguments host (program :: line.render) = some (.ok s) ↔
      arguments host (program' :: line'.render) = some (.ok s) := by
  rw [arguments_of_line, arguments_of_line, Option.some.injEq, Option.some.injEq]
  exact ⟨hsame.readLine_ok hoperands, hsame.symm.readLine_ok hoperands.symm⟩

/-- "-l 50 -p 7 -v" -/
def spacedLine : Line spec where
  words := [.short ⟨[], .next 'l' "50".toList (by decide), by simp⟩ (by decide),
    .short ⟨[], .next 'p' ['7'] (by decide), by simp⟩ (by decide),
    .short ⟨[], .flag 'v' (by decide), by simp⟩ (by decide)]
  rest := .bare [] (by simp)

/-- "-vp7 --lim=50 --" -/
def packedLine : Line spec where
  words := [.short ⟨['v'], .attached 'p' ['7'] (by decide) (by simp),
      List.forall_mem_singleton.mpr (by decide)⟩ (by decide),
    .longEquals "lim".toList ⟨"limit".toList, true, 'l'⟩ "50".toList (by decide) rfl (by decide)]
  rest := .dashed []

theorem sameOptions_packedLine : SameOptions spacedLine.found packedLine.found := by
  have hspaced : spacedLine.found =
      [⟨'l', some "50".toList⟩, ⟨'p', some ['7']⟩, ⟨'v', none⟩] := rfl
  have hpacked : packedLine.found =
      [⟨'v', none⟩, ⟨'p', some ['7']⟩, ⟨'l', some "50".toList⟩] := rfl
  intro c
  rw [hspaced, hpacked]
  by_cases hl : c = 'l'
  · subst hl
    rfl
  · by_cases hp : c = 'p'
    · subst hp
      rfl
    · simp [List.filter_cons, Ne.symm hl, Ne.symm hp]

theorem spellingsAgree_packedLine :
    arguments usualHost ("cpulimit".toList :: packedLine.render) =
      some (.ok spelledSettings) :=
  (spellingsAgree usualHost sameOptions_packedLine rfl "cpulimit".toList "cpulimit".toList _).mp
    (by decide +kernel)

end CpuLimit.Arguments
