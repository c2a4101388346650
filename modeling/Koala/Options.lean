import Koala.AtomString
import Mathlib.Data.List.DropRight

open koala.atomstring (string_ndup)

namespace koala.options

set_option linter.style.nameCheck false

structure namevalue where
  name : CString
  value : CString
  deriving DecidableEq

/-- The vectors of the options are lists. -/
structure Options where
  srcpath : Option CString
  pathes : List CString
  outpath : Option CString
  nvs : List namevalue
  args : List CString
  deriving DecidableEq

def init_options : Options := ⟨none, [], none, [], []⟩

def options_number (opts : Options) : Nat :=
  let num := opts.pathes.length + opts.nvs.length
  let num := if opts.srcpath ≠ none then num + 1 else num
  let num := if opts.outpath ≠ none then num + 1 else num
  2 * num

/-- `array[ind++] = s` -/
def put : List (Option CString) × Nat → CString → Res (List (Option CString) × Nat)
  | (array, ind), s =>
    if ind < array.length then .ok (array.set ind (some s), ind + 1) else .error .bounds

/-- The option `-c`. -/
def flag (c : UInt8) (h : c ≠ 0) : CString where
  bytes := ['-'.toUInt8, c]
  nonul := by
    simp only [List.mem_cons, List.not_mem_nil, or_false, not_or]
    exact ⟨by decide, h.symm⟩

def flag_s : CString := flag 's'.toUInt8 (by decide)

def flag_p : CString := flag 'p'.toUInt8 (by decide)

def flag_o : CString := flag 'o'.toUInt8 (by decide)

def flag_D : CString := flag 'D'.toUInt8 (by decide)

def put_option (c : CString) (s : List (Option CString) × Nat) (arg : CString) :
    Res (List (Option CString) × Nat) := do
  let s ← put s c
  put s arg

/-- `sprintf(buf, "%s=%s", nv->name, nv->value)` -/
def namevalue.text (nv : namevalue) : CString where
  bytes := nv.name.bytes ++ '='.toUInt8 :: nv.value.bytes
  nonul := by
    rw [List.mem_append, List.mem_cons, not_or, not_or]
    exact ⟨nv.name.nonul, by decide, nv.value.nonul⟩

def options_toarray (opts : Options) (array : List (Option CString)) (ind : Nat) :
    Res (List (Option CString)) := do
  let s ← opts.srcpath.toList.foldlM (put_option flag_s) (array, ind)
  let s ← opts.pathes.foldlM (put_option flag_p) s
  let s ← opts.outpath.toList.foldlM (put_option flag_o) s
  let s ← (opts.nvs.map namevalue.text).foldlM (put_option flag_D) s
  .ok s.1

/-- What `getopt` keeps between its calls, with the letters that follow in one argument. -/
structure Getopt where
  optind : Nat
  nextchar : List UInt8
  optarg : Option CString

def optstring : List UInt8 := "s:p:o:D:vh".toList.map Char.toUInt8

/-- Whether an option takes an argument. -/
def takes_argument (c : UInt8) : Option Bool :=
  if c = ':'.toUInt8 then none
  else
    match optstring.dropWhile (· ≠ c) with
    | [] => none
    | _ :: next => some (next.head? = some ':'.toUInt8)

/-- The letter of an option and the letters behind it. -/
def getopt.letter (argv : List CString) (optind : Nat) (c : UInt8) (rest : List UInt8) :
    UInt8 × Getopt :=
  let after : Getopt := ⟨if rest = [] then optind + 1 else optind, rest, none⟩
  match takes_argument c with
  | none => ('?'.toUInt8, after)
  | some false => (c, after)
  | some true =>
    if rest ≠ [] then (c, ⟨optind + 1, [], some (CString.ofData rest)⟩)
    else
      match argv[optind + 1]? with
      | none => ('?'.toUInt8, ⟨optind + 2, [], none⟩)
      | some arg => (c, ⟨optind + 2, [], some arg⟩)

/-- `getopt` as POSIX has it: it ends at the first argument that is no option. -/
def getopt (argv : List CString) (st : Getopt) : Option UInt8 × Getopt :=
  match st.nextchar with
  | c :: rest =>
    let (c, st) := getopt.letter argv st.optind c rest
    (some c, st)
  | [] =>
    match argv[st.optind]? with
    | none => (none, st)
    | some arg =>
      match arg.bytes with
      | d :: c :: rest =>
        if d ≠ '-'.toUInt8 then (none, st)
        else if c = '-'.toUInt8 ∧ rest = [] then (none, { st with optind := st.optind + 1 })
        else
          let (c, st) := getopt.letter argv st.optind c rest
          (some c, st)
      | _ => (none, st)

def parse_namevalue (opt : CString) : Res namevalue :=
  match opt.bytes.dropWhile (· ≠ '='.toUInt8) with
  | [] => .error .exit
  | _ :: value =>
    if value = [] then .error .exit
    else
      .ok ⟨CString.ofData (opt.bytes.takeWhile (· ≠ '='.toUInt8)), CString.ofData value⟩

/-- The copy without the slashes at the end; the loop over a string of slashes goes on
before it. -/
def remove_slashes (arg : CString) : Res CString :=
  let len := (arg.bytes.rdropWhile (· = '/'.toUInt8)).length
  if len = 0 then .error .bounds else .ok (string_ndup arg.bytes len)

/-- The options whose argument is kept; the others print a text and exit. -/
def parse_options.option (opts : Options) (opt : UInt8) (optarg : Option CString) : Res Options :=
  match optarg with
  | none => .error .exit
  | some optarg =>
    if opt = 's'.toUInt8 then .ok { opts with srcpath := some optarg }
    else if opt = 'p'.toUInt8 then do
      let path ← remove_slashes optarg
      .ok { opts with pathes := opts.pathes ++ [path] }
    else if opt = 'o'.toUInt8 then .ok { opts with outpath := some optarg }
    else if opt = 'D'.toUInt8 then do
      let nv ← parse_namevalue optarg
      .ok { opts with nvs := opts.nvs ++ [nv] }
    else .error .exit

/-- The loop over the options; the result has the `optind` behind them. -/
def parse_options.loop (argv : List CString) : Nat → Getopt → Options → Res (Nat × Options)
  | 0, _, _ => .error .fuel
  | fuel + 1, st, opts =>
    match getopt argv st with
    | (none, st) => .ok (st.optind, opts)
    | (some opt, st) => do
      let opts ← parse_options.option opts opt st.optarg
      loop argv fuel st opts

def parse_options.argument (opts : Options) (arg : CString) : Res Options :=
  if arg.bytes = ['?'.toUInt8] then .error .exit
  else do
    let arg ← remove_slashes arg
    .ok { opts with args := opts.args ++ [arg] }

/-- Each option that is kept moves `optind`. -/
def parse_options (argv : List CString) (opts : Options) : Res Options := do
  let (optind, opts) ← parse_options.loop argv argv.length ⟨1, [], none⟩ opts
  let opts ← (argv.drop optind).foldlM parse_options.argument opts
  if opts.args = [] then .error .exit else .ok opts

end koala.options

namespace koala.options

/-- The entries of an array that stand for options and their arguments. -/
def paired (c : CString) (args : List CString) : List CString := args.flatMap fun arg => [c, arg]

theorem length_paired (c : CString) (args : List CString) :
    (paired c args).length = 2 * args.length := by
  induction args with
  | nil => rfl
  | cons arg args ih =>
    change (paired c args).length + 2 = _
    rw [ih, List.length_cons, Nat.mul_succ]

/-- What the options are passed on as. -/
def Options.entries (opts : Options) : List CString :=
  paired flag_s opts.srcpath.toList ++ paired flag_p opts.pathes ++
    paired flag_o opts.outpath.toList ++ paired flag_D (opts.nvs.map namevalue.text)

theorem length_entries (opts : Options) : opts.entries.length = options_number opts := by
  unfold Options.entries options_number
  rw [List.length_append, List.length_append, List.length_append, length_paired, length_paired,
    length_paired, length_paired, List.length_map]
  cases opts.srcpath <;> cases opts.outpath <;> simp <;> omega

theorem foldlM_put_option (c : CString) (args : List CString)
    (s : List (Option CString) × Nat) :
    args.foldlM (put_option c) s = (paired c args).foldlM put s := by
  induction args generalizing s with
  | nil => rfl
  | cons arg args ih =>
    change _ = (c :: arg :: paired c args).foldlM put s
    rw [List.foldlM_cons, List.foldlM_cons, put_option]
    cases put s c with
    | error _ => rfl
    | ok s =>
      rw [ok_bind, ok_bind, List.foldlM_cons]
      cases put s arg with
      | error _ => rfl
      | ok s => exact ih s

theorem options_toarray_eq (opts : Options) (array : List (Option CString)) (ind : Nat) :
    options_toarray opts array ind =
      opts.entries.foldlM put (array, ind) >>= fun s => .ok s.1 := by
  simp only [options_toarray, Options.entries, foldlM_put_option, List.foldlM_append, bind_assoc]

/-- Strings are written one after the other where there is room. -/
theorem foldlM_put (entries : List CString) (array : List (Option CString)) (ind : Nat)
    (hroom : ind + entries.length ≤ array.length) :
    entries.foldlM put (array, ind) =
      .ok (array.take ind ++ entries.map some ++ array.drop (ind + entries.length),
        ind + entries.length) := by
  induction entries generalizing array ind with
  | nil => simp [Pure.pure, Except.pure]
  | cons s entries ih =>
    rw [List.length_cons] at hroom
    have hlt : ind < array.length := by omega
    have hput : put (array, ind) s = .ok (array.set ind (some s), ind + 1) := if_pos hlt
    rw [List.foldlM_cons, hput, ok_bind, ih _ _ (by rw [List.length_set]; omega)]
    have htake : (array.set ind (some s)).take (ind + 1) = array.take ind ++ [some s] := by
      rw [List.take_set, List.take_succ_eq_append_getElem hlt,
        List.set_append_right _ _ (List.length_take_le _ _)]
      simp [Nat.min_eq_left hlt.le]
    have hdrop : (array.set ind (some s)).drop (ind + 1 + entries.length) =
        array.drop (ind + (entries.length + 1)) := by
      rw [List.drop_set_of_lt (by omega), Nat.add_right_comm, Nat.add_assoc]
    rw [htake, hdrop, List.map_cons, List.length_cons]
    simp [Nat.add_right_comm, Nat.add_assoc]

section parse

variable {argv rest : List CString} {i : Nat} {c : UInt8} {h : c ≠ 0} {arg : CString}
  {o : Option CString}

theorem getElem?_of_drop {l l' : List CString} {i : Nat} (h : l.drop i = l') (j : Nat) :
    l[i + j]? = l'[j]? := by
  rw [← h, List.getElem?_drop]

/-- An option and its argument. -/
theorem getopt_paired (hc : takes_argument c = some true) (hdash : c ≠ '-'.toUInt8)
    (hdrop : argv.drop i = flag c h :: arg :: rest) :
    getopt argv ⟨i, [], o⟩ = (some c, ⟨i + 2, [], some arg⟩) := by
  have hflag : argv[i]? = some (flag c h) := getElem?_of_drop hdrop 0
  have harg : argv[i + 1]? = some arg := getElem?_of_drop hdrop 1
  simp [getopt, getopt.letter, hflag, flag, hdash, hc, harg]

/-- The options end where an argument does not start with a dash. -/
theorem getopt_end (hdash : arg.bytes.head? ≠ some '-'.toUInt8)
    (hdrop : argv.drop i = arg :: rest) :
    getopt argv ⟨i, [], o⟩ = (none, ⟨i, [], o⟩) := by
  have harg : argv[i]? = some arg := getElem?_of_drop hdrop 0
  unfold getopt
  dsimp only
  rw [harg]
  dsimp only
  split
  · next d c rest heq =>
    have hd : d ≠ '-'.toUInt8 := by simpa [heq] using hdash
    rw [if_pos hd]
  · rfl

/-- A group of options of one letter is read in its order. -/
theorem loop_paired (hc : takes_argument c = some true) (hdash : c ≠ '-'.toUInt8)
    {args : List CString} {opts opts' : Options} (fuel : Nat)
    (hdrop : argv.drop i = paired (flag c h) args ++ rest)
    (hopts : args.foldlM (fun opts arg => parse_options.option opts c (some arg)) opts =
      .ok opts') :
    ∃ o', parse_options.loop argv (fuel + args.length) ⟨i, [], o⟩ opts =
      parse_options.loop argv fuel ⟨i + 2 * args.length, [], o'⟩ opts' := by
  induction args generalizing i opts o with
  | nil =>
    obtain rfl : opts = opts' := Except.ok.inj hopts
    exact ⟨o, rfl⟩
  | cons arg args ih =>
    rw [List.foldlM_cons, bind_eq_ok_iff] at hopts
    obtain ⟨mid, hmid, hopts⟩ := hopts
    have hget := getopt_paired (o := o) hc hdash hdrop
    have hrest : argv.drop (i + 2) = paired (flag c h) args ++ rest := by
      rw [← List.drop_drop, hdrop]
      rfl
    obtain ⟨o', hloop⟩ := ih (o := some arg) hrest hopts
    refine ⟨o', ?_⟩
    rw [List.length_cons, ← Nat.add_assoc, parse_options.loop, hget]
    dsimp only
    rw [hmid, ok_bind, hloop, Nat.mul_succ, Nat.add_assoc, Nat.add_comm 2]

theorem drop_paired {l l' args : List CString} {d : CString} {j : Nat}
    (hdrop : l.drop j = paired d args ++ l') : l.drop (j + 2 * args.length) = l' := by
  rw [← List.drop_drop, hdrop, List.drop_left' (length_paired d args)]

/-- Nothing is to be removed. -/
theorem remove_slashes_eq (hne : arg.bytes ≠ []) (hslash : arg.bytes.getLast? ≠ some '/'.toUInt8) :
    remove_slashes arg = .ok arg := by
  have hself : arg.bytes.rdropWhile (· = '/'.toUInt8) = arg.bytes := by
    refine List.rdropWhile_eq_self_iff.mpr fun hl => ?_
    rw [List.getLast?_eq_some_getLast hl] at hslash
    simpa using hslash
  have hlength : arg.bytes.length ≠ 0 := fun hzero => hne (List.length_eq_zero_iff.mp hzero)
  rw [remove_slashes, hself, if_neg hlength, string_ndup, List.take_length, CString.ofData_bytes]

theorem parse_namevalue_text {nv : namevalue} (hname : '='.toUInt8 ∉ nv.name.bytes)
    (hvalue : nv.value.bytes ≠ []) : parse_namevalue nv.text = .ok nv := by
  have hall : ∀ d ∈ nv.name.bytes, decide (d ≠ '='.toUInt8) = true := by
    intro d hd
    exact decide_eq_true fun heq => hname (heq ▸ hd)
  have hstop : decide ('='.toUInt8 ≠ '='.toUInt8) = false := by decide
  have hdrop : nv.text.bytes.dropWhile (fun d => decide (d ≠ '='.toUInt8)) =
      '='.toUInt8 :: nv.value.bytes := by
    rw [namevalue.text, List.dropWhile_append_of_pos hall, List.dropWhile_cons_of_neg (by simp)]
  have htake : nv.text.bytes.takeWhile (fun d => decide (d ≠ '='.toUInt8)) = nv.name.bytes := by
    rw [namevalue.text, List.takeWhile_append_of_pos hall, List.takeWhile_cons_of_neg (by simp),
      List.append_nil]
  rw [parse_namevalue, hdrop, htake]
  dsimp only
  rw [if_neg hvalue, CString.ofData_bytes, CString.ofData_bytes]

end parse

/-- The strings of the options are not empty, no path ends in a slash and no name has an
equals sign. -/
structure Options.Passable (opts : Options) : Prop where
  srcpath : ∀ s ∈ opts.srcpath, s.bytes ≠ []
  pathes : ∀ s ∈ opts.pathes, s.bytes ≠ [] ∧ s.bytes.getLast? ≠ some '/'.toUInt8
  outpath : ∀ s ∈ opts.outpath, s.bytes ≠ []
  nvs : ∀ nv ∈ opts.nvs, nv.name.bytes ≠ [] ∧ '='.toUInt8 ∉ nv.name.bytes ∧ nv.value.bytes ≠ []

section read

variable (opts : Options)

theorem option_pathes {pathes : List CString}
    (h : ∀ s ∈ pathes, s.bytes ≠ [] ∧ s.bytes.getLast? ≠ some '/'.toUInt8) :
    pathes.foldlM (fun opts arg => parse_options.option opts 'p'.toUInt8 (some arg)) opts =
      .ok { opts with pathes := opts.pathes ++ pathes } := by
  induction pathes generalizing opts with
  | nil => simp [Pure.pure, Except.pure]
  | cons s pathes ih =>
    obtain ⟨hne, hslash⟩ := h s List.mem_cons_self
    have hs : parse_options.option opts 'p'.toUInt8 (some s) =
        .ok { opts with pathes := opts.pathes ++ [s] } := by
      rw [parse_options.option, if_neg (by decide), if_pos rfl, remove_slashes_eq hne hslash]
      rfl
    rw [List.foldlM_cons, hs, ok_bind, ih _ fun s' hs' => h s' (List.mem_cons_of_mem s hs')]
    simp

theorem option_nvs {nvs : List namevalue} (h : ∀ nv ∈ nvs,
      nv.name.bytes ≠ [] ∧ '='.toUInt8 ∉ nv.name.bytes ∧ nv.value.bytes ≠ []) :
    (nvs.map namevalue.text).foldlM
        (fun opts arg => parse_options.option opts 'D'.toUInt8 (some arg)) opts =
      .ok { opts with nvs := opts.nvs ++ nvs } := by
  induction nvs generalizing opts with
  | nil => simp [Pure.pure, Except.pure]
  | cons nv nvs ih =>
    obtain ⟨_, hname, hvalue⟩ := h nv List.mem_cons_self
    have hnv : parse_options.option opts 'D'.toUInt8 (some nv.text) =
        .ok { opts with nvs := opts.nvs ++ [nv] } := by
      rw [parse_options.option, if_neg (by decide), if_neg (by decide), if_neg (by decide),
        if_pos rfl, parse_namevalue_text hname hvalue]
      rfl
    rw [List.map_cons, List.foldlM_cons, hnv, ok_bind,
      ih _ fun nv' hnv' => h nv' (List.mem_cons_of_mem nv hnv')]
    simp

theorem argument_packages {packages : List CString} (h : ∀ s ∈ packages,
      s.bytes ≠ [] ∧ s.bytes ≠ ['?'.toUInt8] ∧ s.bytes.getLast? ≠ some '/'.toUInt8) :
    packages.foldlM parse_options.argument opts =
      .ok { opts with args := opts.args ++ packages } := by
  induction packages generalizing opts with
  | nil => simp [Pure.pure, Except.pure]
  | cons s packages ih =>
    obtain ⟨hne, husage, hslash⟩ := h s List.mem_cons_self
    have hs : parse_options.argument opts s = .ok { opts with args := opts.args ++ [s] } := by
      simp [parse_options.argument, husage, remove_slashes_eq hne hslash]
    rw [List.foldlM_cons, hs, ok_bind, ih _ fun s' hs' => h s' (List.mem_cons_of_mem s hs')]
    simp

theorem option_srcpath (srcpath : Option CString) (hnone : opts.srcpath = none) :
    srcpath.toList.foldlM (fun opts arg => parse_options.option opts 's'.toUInt8 (some arg)) opts =
      .ok { opts with srcpath } := by
  cases srcpath with
  | none =>
    change Except.ok opts = Except.ok _
    rw [← hnone]
  | some s => rfl

theorem option_outpath (outpath : Option CString) (hnone : opts.outpath = none) :
    outpath.toList.foldlM (fun opts arg => parse_options.option opts 'o'.toUInt8 (some arg)) opts =
      .ok { opts with outpath } := by
  cases outpath with
  | none =>
    change Except.ok opts = Except.ok _
    rw [← hnone]
  | some s => rfl

/-- The loop over the entries of some options rebuilds them. -/
theorem Options.Passable.loop {opts : Options} (hopts : opts.Passable) (prog : CString)
    {package : CString} (packages : List CString) (hdash : package.bytes.head? ≠ some '-'.toUInt8) :
    let argv := prog :: opts.entries ++ package :: packages
    parse_options.loop argv argv.length ⟨1, [], none⟩ init_options =
      .ok (1 + opts.entries.length, { opts with args := [] }) := by
  intro argv
  have hdrop : argv.drop 1 = paired flag_s opts.srcpath.toList ++
      (paired flag_p opts.pathes ++ (paired flag_o opts.outpath.toList ++
        (paired flag_D (opts.nvs.map namevalue.text) ++ package :: packages))) := by
    simp [argv, Options.entries]
  have hentries : opts.entries.length = 2 * opts.srcpath.toList.length +
      2 * opts.pathes.length + 2 * opts.outpath.toList.length +
      2 * (opts.nvs.map namevalue.text).length := by
    simp [Options.entries, length_paired]
    omega
  let fuel := opts.srcpath.toList.length + opts.pathes.length + opts.outpath.toList.length +
    (opts.nvs.map namevalue.text).length + packages.length + 1
  have hfuel : argv.length = fuel + 1 + (opts.nvs.map namevalue.text).length +
      opts.outpath.toList.length + opts.pathes.length + opts.srcpath.toList.length := by
    have hargv : argv.length = opts.entries.length + packages.length + 2 := by
      simp [argv]
      omega
    omega
  obtain ⟨_, hsrcpath⟩ := loop_paired (o := none) (by decide) (by decide)
    (fuel + 1 + (opts.nvs.map namevalue.text).length + opts.outpath.toList.length +
      opts.pathes.length) hdrop (option_srcpath init_options opts.srcpath rfl)
  obtain ⟨_, hpathes⟩ := loop_paired (by decide) (by decide)
    (fuel + 1 + (opts.nvs.map namevalue.text).length + opts.outpath.toList.length)
    (drop_paired hdrop) (option_pathes { init_options with srcpath := opts.srcpath } hopts.pathes)
  obtain ⟨_, houtpath⟩ := loop_paired (by decide) (by decide)
    (fuel + 1 + (opts.nvs.map namevalue.text).length)
    (drop_paired (drop_paired hdrop)) (option_outpath { init_options with
      srcpath := opts.srcpath
      pathes := [] ++ opts.pathes } opts.outpath rfl)
  obtain ⟨o', hnvs⟩ := loop_paired (by decide) (by decide) (fuel + 1)
    (drop_paired (drop_paired (drop_paired hdrop))) (option_nvs { init_options with
      srcpath := opts.srcpath
      pathes := [] ++ opts.pathes
      outpath := opts.outpath } hopts.nvs)
  have hend := getopt_end (o := o') hdash
    (drop_paired (drop_paired (drop_paired (drop_paired hdrop))))
  rw [hfuel]
  refine hsrcpath.trans (hpathes.trans (houtpath.trans (hnvs.trans ?_)))
  rw [parse_options.loop, hend]
  simp [hentries, init_options]
  omega

end read

/-- Options that are passed on are parsed as they were, in front of packages; a package of
the name `?` asks for the usage. -/
theorem options_survive (opts : Options) (hopts : opts.Passable) (prog : CString)
    (array : List (Option CString)) (ind : Nat)
    (hroom : ind + options_number opts ≤ array.length) (packages : List CString)
    (hne : packages ≠ [])
    (hpackages : ∀ s ∈ packages, s.bytes.head? ≠ some '-'.toUInt8 ∧ s.bytes ≠ [] ∧
      s.bytes ≠ ['?'.toUInt8] ∧ s.bytes.getLast? ≠ some '/'.toUInt8) :
    ∃ entries : List CString, entries.length = options_number opts ∧
      options_toarray opts array ind = .ok (array.take ind ++ entries.map some ++
        array.drop (ind + options_number opts)) ∧
      parse_options (prog :: entries ++ packages) init_options =
        .ok { opts with args := packages } := by
  refine ⟨opts.entries, length_entries opts, ?_, ?_⟩
  · rw [← length_entries] at hroom ⊢
    rw [options_toarray_eq, foldlM_put _ _ _ hroom, ok_bind]
  · cases packages with
    | nil => exact absurd rfl hne
    | cons package packages =>
      have hloop := hopts.loop prog packages (hpackages package List.mem_cons_self).1
      have hdrop : (prog :: opts.entries ++ package :: packages).drop (1 + opts.entries.length) =
          package :: packages := List.drop_left' (by simp [Nat.add_comm])
      rw [parse_options, hloop, ok_bind]
      dsimp only
      rw [hdrop, argument_packages _ fun s hs => (hpackages s hs).2, ok_bind]
      exact if_neg (List.cons_ne_nil _ _)

def letter (c : UInt8) (h : c ≠ 0) : CString := ⟨[c], by simpa using h.symm⟩

/-- A source path, a path, and a name with a value, in front of one package. -/
theorem options_survive_two :
    let s := letter 's'.toUInt8 (by decide)
    let opts : Options := ⟨some s, [s], none, [⟨s, s⟩], []⟩
    ∃ entries : List CString, entries.length = 6 ∧
      options_toarray opts (List.replicate 8 none) 1 =
        .ok (none :: entries.map some ++ [none]) ∧
      parse_options (s :: entries ++ [s]) init_options = .ok { opts with args := [s] } := by
  intro s opts
  have hopts : opts.Passable := ⟨by decide, by decide, by decide, by decide⟩
  exact options_survive opts hopts s (List.replicate 8 none) 1 (by decide) [s] (by decide)
    (by decide)

/-- A package of the name `?` is none. -/
theorem not_options_survive :
    ¬ ∀ (opts : Options) (prog : CString) (array : List (Option CString)) (ind : Nat)
      (packages : List CString), opts.Passable →
      ind + options_number opts ≤ array.length → packages ≠ [] →
      (∀ s ∈ packages, s.bytes.head? ≠ some '-'.toUInt8 ∧
        s.bytes.getLast? ≠ some '/'.toUInt8) →
      ∃ entries : List CString, entries.length = options_number opts ∧
        options_toarray opts array ind = .ok (array.take ind ++ entries.map some ++
          array.drop (ind + options_number opts)) ∧
        parse_options (prog :: entries ++ packages) init_options =
          .ok { opts with args := packages } := by
  intro h
  let usage := letter '?'.toUInt8 (by decide)
  obtain ⟨entries, hlength, _, hparse⟩ := h init_options usage [] 0 [usage]
    ⟨by decide, by decide, by decide, by decide⟩ (by decide) (by decide) (by decide)
  obtain rfl : entries = [] := List.length_eq_zero_iff.mp hlength
  have hexit : parse_options [usage, usage] init_options = .error .exit := by decide
  cases hexit.symm.trans hparse

end koala.options
