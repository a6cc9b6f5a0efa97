import CppTest.PrintProofs
import CppTest.ScanProofs

/-! # The configuration of a Paxos node (`src/paxos/test_paxos.c`)

    `paxos_config_load` reads the options and cuts two of them in ONE buffer: the address goes
    to its front and is cut at the colon, then the node string goes behind the colon and is cut
    at its commas.  `ip` and `nodes` point into the buffer.

    * The model: the options (`parseArgs`), the buffer (`cutBuffer`) and its loop
      (`splitPass`); pointers into the buffer are offsets.
    * The node string is cut into its segments (`splitLoop_spec`), as far as the table
      `nodes` reaches (`splitLoop_outside`).
    * The buffer has four times the length of the node string, whatever the address is.
      `config_load_iff` says when everything fits. -/

namespace PaxosConfig

open Print Machine Scan

/-! ## The model -/

abbrev NODE_MAX : Nat := 1024

/-- `struct paxos_config`; `ip` and `nodes` are offsets in `buf`. -/
structure Config where
  nodeId : Int
  addr : List Char
  nodestr : List Char
  ip : Option Nat
  port : Int
  nodes : List (Option Nat)
  nNodes : Int
  echoFile : Option (List Char)
  buf : Option (List Char)

/-- `g_cfg_obj`, the configuration before the first call. -/
def gCfgObj : Config where
  nodeId := 1
  addr := "127.0.0.1:1111".toList
  nodestr := "127.0.0.1:11111,127.0.0.1:11112,127.0.0.1:11113".toList
  ip := none
  port := 0
  nodes := List.replicate NODE_MAX none
  nNodes := 0
  echoFile := none
  buf := none

/-- What the loop over the options sets, and what it prints on `stderr`. -/
structure Args where
  cfg : Config
  nodeidstr : Option (List Char)
  loglevelstr : Option (List Char)
  stderr : List (List Char)

/-- A line about an option that is not taken. -/
def Args.complain (a : Args) (what : String) (arg : List Char) : Args :=
  { a with stderr := a.stderr ++
    ["paxos_config_load: ".toList ++ what.toList ++ ", arg: '".toList ++ arg ++ "'\n".toList] }

/-- The variable that an option sets. -/
def optionOf : Char → Option (Args → List Char → Args)
  | 'i' => some fun a v => { a with nodeidstr := some v }
  | 'a' => some fun a v => { a with cfg := { a.cfg with addr := v } }
  | 'n' => some fun a v => { a with cfg := { a.cfg with nodestr := v } }
  | 'v' => some fun a v => { a with loglevelstr := some v }
  | 'f' => some fun a v => { a with cfg := { a.cfg with echoFile := some v } }
  | _ => none

/-- The loop over `argv[1]`, `argv[2]`, ...: a value stands in the same argument or is the
    next one. -/
def parseArgs : List (List Char) → Args → Args
  | [], a => a
  | arg :: rest, a =>
      match arg with
      | '-' :: c :: value =>
          match optionOf c with
          | none => parseArgs rest (a.complain "unsupported" arg)
          | some assign =>
              if value = [] then
                match rest with
                | [] => a.complain "parameter need value" arg
                | v :: rest => parseArgs rest (assign a v)
              else parseArgs rest (assign a value)
      | _ => parseArgs rest (a.complain "unsupported" arg)

/-- The variables of the loop that cuts the node string. -/
structure Split where
  buf : List Char
  nodes : List (Option Nat)
  nNodes : Int
  p : Nat

/-- One pass of it; `finish` is `end`. -/
def splitPass (finish : Nat) (s : Split) : Option (Pass Split Split) := do
  match ← strchrAt s.buf s.p ',' with
  | none =>
      if finish - s.p > 0 then
        let nodes ← setAt s.nodes s.nNodes (some s.p)
        some (.done { s with nodes := nodes, nNodes := s.nNodes + 1 })
      else some (.done s)
  | some q =>
      let buf ← setAt s.buf q nul
      let nodes ← setAt s.nodes s.nNodes (some s.p)
      some (.next ⟨buf, nodes, s.nNodes + 1, q + 1⟩)

/-- The part of `paxos_config_load` behind the options: what it returns, and the
    configuration. -/
def cutBuffer (fuel : Nat) (cfg : Config) : Option (Int × Config) := do
  let buf := cfg.buf.getD (List.replicate (4 * cfg.nodestr.length % 2 ^ 64) nul)
  let buf ← sprintfAt buf 0 cfg.addr
  match ← strchrAt buf 0 ':' with
  | none => some (-1, { cfg with buf := some buf })
  | some p =>
      let buf ← setAt buf p nul
      let text ← cString (buf.drop (p + 1))
      let buf ← sprintfAt buf (p + 1) cfg.nodestr
      let copy ← cString (buf.drop (p + 1))
      let s ← loop (splitPass (p + 1 + copy.length)) fuel ⟨buf, cfg.nodes, cfg.nNodes, p + 1⟩
      some (0, { cfg with
        ip := some 0
        port := atoi text
        nodes := s.nodes
        nNodes := s.nNodes
        buf := some s.buf })

/-- What a call leaves. -/
structure Loaded where
  rc : Int
  cfg : Config
  loglevel : Int
  stderr : List (List Char)

/-- The options of a call, read. -/
def argsOf (cfg : Config) (argv : List (List Char)) : Args :=
  parseArgs argv.tail ⟨cfg, none, none, []⟩

/-- `paxos_config_load`, on the configuration `g_paxos_cfg`. -/
def paxosConfigLoad (fuel : Nat) (cfg : Config) (loglevel : Int) (argv : List (List Char)) :
    Option Loaded := do
  let a := argsOf cfg argv
  let (rc, cfg) ← cutBuffer fuel
    { a.cfg with nodeId := (a.nodeidstr.map atoi).getD a.cfg.nodeId }
  some ⟨rc, cfg, (a.loglevelstr.map atoi).getD loglevel, a.stderr⟩

/-! ## The segments of the node string -/

/-- The segments between the commas; an empty last one is dropped. -/
def segments (s : List Char) : List (List Char) :=
  if (s.splitOn ',').getLast? = some [] then (s.splitOn ',').dropLast else s.splitOn ','

theorem segments_last {seg : List Char} (h : ',' ∉ seg) :
    segments seg = if seg = [] then [] else [seg] := by
  rw [segments, List.splitOn_eq_singleton h]
  by_cases hseg : seg = []
  · rw [if_pos (by simp [hseg]), if_pos hseg]
    rfl
  · rw [if_neg (by simpa using hseg), if_neg hseg]

theorem segments_comma {seg : List Char} (rest : List Char) (h : ',' ∉ seg) :
    segments (seg ++ ',' :: rest) = seg :: segments rest := by
  have hsplit : (seg ++ ',' :: rest).splitOn ',' = seg :: rest.splitOn ',' := by
    refine List.splitOnP_append_cons_of_forall_mem (fun c hc => ?_) ',' rfl rest
    exact beq_eq_false_iff_ne.mpr fun heq => h (heq ▸ hc)
  obtain ⟨p, ps, hps⟩ := List.exists_cons_of_ne_nil (List.splitOn_ne_nil ',' rest)
  rw [segments, segments, hsplit, hps, List.getLast?_cons_cons, List.dropLast_cons_cons]
  split <;> rfl

/-- A text is one segment, or a segment, a comma and a text. -/
theorem comma_cases (s : List Char) :
    ',' ∉ s ∨ ∃ seg rest, s = seg ++ ',' :: rest ∧ ',' ∉ seg := by
  by_cases h : ',' ∈ s
  · obtain ⟨seg, rest, hs, hseg⟩ := List.eq_append_cons_of_mem h
    exact Or.inr ⟨seg, rest, hs, hseg⟩
  · exact Or.inl h

/-- Where the segments start, from the offset `p` on. -/
def starts (p : Nat) : List (List Char) → List Nat
  | [] => []
  | seg :: segs => p :: starts (p + seg.length + 1) segs

theorem length_starts (segs : List (List Char)) : ∀ p, (starts p segs).length = segs.length := by
  induction segs with
  | nil => exact fun _ => rfl
  | cons seg segs ih => exact fun p => congrArg (· + 1) (ih _)

/-- The node string after the loop. -/
def cut (s : List Char) : List Char := s.map fun c => if c = ',' then nul else c

theorem cut_eq {seg : List Char} (h : ',' ∉ seg) : cut seg = seg := by
  refine (List.map_congr_left fun c hc => ?_).trans (List.map_id seg)
  have hne : c ≠ ',' := fun heq => h (heq ▸ hc)
  exact if_neg hne

theorem cut_comma {seg : List Char} (rest : List Char) (h : ',' ∉ seg) :
    cut (seg ++ ',' :: rest) = seg ++ nul :: cut rest := by
  rw [cut, List.map_append, List.map_cons, if_pos rfl]
  exact congrArg (· ++ _) (cut_eq h)

/-- The C string that a pointer into the buffer points to. -/
def stringAt (buf : List Char) (o : Option Nat) : Option (List Char) :=
  o.bind fun n => cString (buf.drop n)

/-- **The segments are read back** from their offsets; by induction on the length of what is
    left. -/
theorem starts_read : ∀ (n : Nat) {s T tail : List Char}, s.length ≤ n → nul ∉ s →
    ((starts T.length (segments s)).map some).map (stringAt (T ++ (cut s ++ nul :: tail)))
      = (segments s).map some := by
  intro n
  induction n with
  | zero =>
      intro s T tail hn _
      obtain rfl : s = [] := List.length_eq_zero_iff.mp (Nat.le_zero.mp hn)
      rfl
  | succ n ih =>
      intro s T tail hn hnul
      rcases comma_cases s with hs | ⟨seg, rest, rfl, hseg⟩
      · rw [segments_last hs, cut_eq hs]
        by_cases hempty : s = []
        · rw [if_pos hempty]
          rfl
        · rw [if_neg hempty]
          show [stringAt _ (some T.length)] = [some s]
          rw [stringAt, Option.bind_some, List.drop_left, cString_append hnul]
      · have hseg' : nul ∉ seg := fun h => hnul (List.mem_append_left _ h)
        have hrest : nul ∉ rest := fun h =>
          hnul (List.mem_append_right _ (List.mem_cons_of_mem _ h))
        have hnext := @ih rest (T ++ seg ++ [nul]) tail (by simp at hn; omega) hrest
        rw [segments_comma rest hseg, cut_comma rest hseg]
        have hlen : (T ++ seg ++ [nul]).length = T.length + seg.length + 1 := by
          rw [List.length_append, List.length_append, List.length_singleton]
        have hbuf : T ++ (seg ++ nul :: cut rest ++ nul :: tail)
            = T ++ seg ++ [nul] ++ (cut rest ++ nul :: tail) := by simp
        rw [starts, List.map_cons, List.map_cons, List.map_cons, ← hlen, hbuf, hnext]
        congr 1
        rw [← hbuf, stringAt, Option.bind_some, List.drop_left, List.append_assoc, List.cons_append,
          cString_append hseg']

/-! ## The loop that cuts it -/

/-- `nodes` with the entries that are set. -/
def tableOf (done : List Nat) : List (Option Nat) :=
  done.map some ++ List.replicate (NODE_MAX - done.length) none

section Passes

variable {seg T tail : List Char} {done : List Nat}

theorem splitPass_empty : splitPass (T.length + ([] : List Char).length)
    ⟨T ++ ([] ++ nul :: tail), tableOf done, done.length, T.length⟩
      = some (.done ⟨T ++ ([] ++ nul :: tail), tableOf done, done.length, T.length⟩) := by
  rw [splitPass, strchrAt_null List.not_mem_nil List.not_mem_nil]
  exact if_neg (by simp)

theorem splitPass_last (hseg : ',' ∉ seg) (hnul : nul ∉ seg) (hne : seg ≠ []) :
    splitPass (T.length + seg.length)
      ⟨T ++ (seg ++ nul :: tail), tableOf done, done.length, T.length⟩
      = (setAt (tableOf done) done.length (some T.length)).map fun nodes =>
          .done ⟨T ++ (seg ++ nul :: tail), nodes, done.length + 1, T.length⟩ := by
  have hpos := List.length_pos_of_ne_nil hne
  rw [splitPass, strchrAt_null hseg hnul]
  simp only [Option.bind_eq_bind, Option.bind_some]
  rw [if_pos (by omega)]
  cases setAt (tableOf done) (done.length : Int) (some T.length) <;> rfl

theorem splitPass_comma {rest : List Char} (finish : Nat) (hseg : ',' ∉ seg)
    (hnul : nul ∉ seg ++ ',' :: rest) :
    splitPass finish ⟨T ++ (seg ++ ',' :: rest ++ nul :: tail), tableOf done, done.length, T.length⟩
      = (setAt (tableOf done) done.length (some T.length)).map fun nodes =>
          .next ⟨T ++ seg ++ [nul] ++ (rest ++ nul :: tail), nodes, done.length + 1,
            (T ++ seg ++ [nul]).length⟩ := by
  have hset : setAt (T ++ (seg ++ ',' :: rest ++ nul :: tail))
      ((T.length + seg.length : Nat) : Int) nul
      = some (T ++ seg ++ [nul] ++ (rest ++ nul :: tail)) := by
    have hmid := setAt_mid (T ++ seg) ',' nul (rest ++ nul :: tail)
    rw [List.length_append] at hmid
    simpa using hmid
  rw [splitPass, strchrAt_found hseg hnul]
  simp only [Option.bind_eq_bind, Option.bind_some, hset, List.length_append, List.length_singleton]
  cases setAt (tableOf done) (done.length : Int) (some T.length) <;> rfl

end Passes

theorem setAt_tableOf {done : List Nat} (o : Nat) (h : done.length < NODE_MAX) :
    setAt (tableOf done) done.length (some o) = some (tableOf (done ++ [o])) :=
  setAt_table done o h

theorem setAt_full {done : List Nat} (o : Nat) (h : NODE_MAX ≤ done.length) :
    setAt (tableOf done) done.length (some o) = none := by
  rw [setAt]
  refine if_neg ?_
  rw [tableOf, Nat.sub_eq_zero_of_le h]
  simp

/-- A segment with a comma behind it, with room for its entry: the loop goes on behind the NUL
    that it wrote for the comma. -/
theorem splitLoop_comma {seg rest T tail : List Char} {done : List Nat} {fuel : Nat}
    (hseg : ',' ∉ seg) (hnul : nul ∉ seg ++ ',' :: rest) (hroom : done.length < NODE_MAX) :
    loop (splitPass (T.length + (seg ++ ',' :: rest).length)) (fuel + 1)
        ⟨T ++ (seg ++ ',' :: rest ++ nul :: tail), tableOf done, done.length, T.length⟩
      = loop (splitPass ((T ++ seg ++ [nul]).length + rest.length)) fuel
        ⟨T ++ seg ++ [nul] ++ (rest ++ nul :: tail), tableOf (done ++ [T.length]),
          (done ++ [T.length]).length, (T ++ seg ++ [nul]).length⟩ := by
  have hpass := @splitPass_comma seg T tail done rest
    (T.length + (seg ++ ',' :: rest).length) hseg hnul
  rw [setAt_tableOf T.length hroom] at hpass
  have hend : T.length + (seg ++ ',' :: rest).length
      = (T ++ seg ++ [nul]).length + rest.length := by
    simp
    omega
  have hlen : (done.length : Int) + 1 = ((done ++ [T.length]).length : Int) := by simp
  rw [loop_next (Nat.succ_pos fuel) hpass, hend, hlen, Nat.succ_sub_one]

/-- **The loop** sets one entry for each segment. -/
theorem splitLoop_spec : ∀ (n : Nat) {s T tail : List Char} {done : List Nat}, s.length ≤ n →
    nul ∉ s → done.length + (segments s).length ≤ NODE_MAX →
    ∃ p, ∀ fuel, n < fuel → loop (splitPass (T.length + s.length)) fuel
        ⟨T ++ (s ++ nul :: tail), tableOf done, done.length, T.length⟩
      = some ⟨T ++ (cut s ++ nul :: tail), tableOf (done ++ starts T.length (segments s)),
          (done ++ starts T.length (segments s)).length, p⟩ := by
  intro n
  induction n with
  | zero =>
      intro s T tail done hn _ _
      obtain rfl : s = [] := List.length_eq_zero_iff.mp (Nat.le_zero.mp hn)
      refine ⟨T.length, fun fuel hfuel => ?_⟩
      rw [loop_done hfuel splitPass_empty, show segments [] = [] from rfl, starts, List.append_nil]
      rfl
  | succ n ih =>
      intro s T tail done hn hnul hroom
      rcases comma_cases s with hs | ⟨seg, rest, rfl, hseg⟩
      · by_cases hempty : s = []
        · subst hempty
          refine ⟨T.length, fun fuel hfuel => ?_⟩
          rw [loop_done (Nat.zero_lt_of_lt hfuel) splitPass_empty,
            show segments [] = [] from rfl, starts, List.append_nil]
          rfl
        · have hsegs : segments s = [s] := (segments_last hs).trans (if_neg hempty)
          rw [hsegs] at hroom ⊢
          have hpass := @splitPass_last s T tail done hs hnul hempty
          rw [setAt_tableOf T.length (Nat.lt_of_succ_le hroom)] at hpass
          refine ⟨T.length, fun fuel hfuel => ?_⟩
          rw [loop_done (Nat.zero_lt_of_lt hfuel) hpass, cut_eq hs, starts, starts,
            List.length_append]
          rfl
      · rw [segments_comma rest hseg] at hroom ⊢
        have hrest : nul ∉ rest := fun h =>
          hnul (List.mem_append_right _ (List.mem_cons_of_mem _ h))
        obtain ⟨p, hloop⟩ := @ih rest (T ++ seg ++ [nul]) tail (done ++ [T.length])
          (by simp at hn; omega) hrest (by simp at hroom ⊢; omega)
        refine ⟨p, fun fuel hfuel => ?_⟩
        obtain ⟨fuel, rfl⟩ : ∃ f, fuel = f + 1 := ⟨fuel - 1, by omega⟩
        have hstart : (T ++ seg ++ [nul]).length = T.length + seg.length + 1 := by
          rw [List.length_append, List.length_append, List.length_singleton]
        rw [splitLoop_comma hseg hnul (by rw [List.length_cons] at hroom; omega),
          hloop _ (by omega), cut_comma rest hseg, starts, hstart]
        simp

/-- **Too many segments**: the entry behind the table is written. -/
theorem splitLoop_outside : ∀ (fuel : Nat) {s T tail : List Char} {done : List Nat}, nul ∉ s →
    done.length ≤ NODE_MAX → NODE_MAX < done.length + (segments s).length →
    loop (splitPass (T.length + s.length)) fuel
      ⟨T ++ (s ++ nul :: tail), tableOf done, done.length, T.length⟩ = none := by
  intro fuel
  induction fuel with
  | zero => exact fun _ _ _ => rfl
  | succ fuel ih =>
      intro s T tail done hnul hdone hmany
      rcases comma_cases s with hs | ⟨seg, rest, rfl, hseg⟩
      · have hempty : s ≠ [] := by
          rintro rfl
          rw [show segments [] = [] from rfl, List.length_nil] at hmany
          omega
        rw [segments_last hs, if_neg hempty, List.length_singleton] at hmany
        rw [loop, splitPass_last hs hnul hempty, setAt_full _ (by omega)]
        rfl
      · rw [segments_comma rest hseg, List.length_cons] at hmany
        rcases Nat.lt_or_ge done.length NODE_MAX with hlt | hge
        · have hrest : nul ∉ rest := fun h =>
            hnul (List.mem_append_right _ (List.mem_cons_of_mem _ h))
          rw [splitLoop_comma hseg hnul hlt]
          exact ih hrest (by simp; omega) (by simp; omega)
        · rw [loop, splitPass_comma _ hseg hnul, setAt_full _ hge]
          rfl

/-! ## The buffer -/

/-- The text before the first colon. -/
def ipOf (addr : List Char) : List Char := addr.takeWhile fun c => c ≠ ':'

/-- The text behind it. -/
def portOf (addr : List Char) : List Char := (addr.dropWhile fun c => c ≠ ':').tail

theorem addr_eq {addr : List Char} (h : ':' ∈ addr) :
    addr = ipOf addr ++ ':' :: portOf addr ∧ ':' ∉ ipOf addr := by
  obtain ⟨ip, port, rfl, hip⟩ := List.eq_append_cons_of_mem h
  have hdrop : (ip ++ ':' :: port).dropWhile (fun c => c ≠ ':') = ':' :: port := by
    rw [List.dropWhile_append_of_pos, List.dropWhile_cons_of_neg (by simp)]
    intro c hc
    have hne : c ≠ ':' := fun heq => hip (heq ▸ hc)
    simpa using hne
  rw [ipOf, portOf, takeWhile_first hip, hdrop]
  exact ⟨rfl, hip⟩

/-- The bytes of the buffer. -/
def bufSize (nodestr : List Char) : Nat := 4 * nodestr.length % 2 ^ 64

/-- The configuration of a first call, with its options read. -/
structure FirstCall (cfg : Config) : Prop where
  buf : cfg.buf = none
  nodes : cfg.nodes = tableOf []
  nNodes : cfg.nNodes = 0
  addr : nul ∉ cfg.addr
  nodestr : nul ∉ cfg.nodestr

/-- What is left to do once the address is cut, with the buffer as `front` and `room`. -/
def cutNodes (fuel : Nat) (cfg : Config) (front room : List Char) : Option (Int × Config) := do
  let buf ← sprintfAt (front ++ room) front.length cfg.nodestr
  let copy ← cString (buf.drop front.length)
  let s ← loop (splitPass (front.length + copy.length)) fuel
    ⟨buf, cfg.nodes, cfg.nNodes, front.length⟩
  some (0, { cfg with
    ip := some 0
    port := atoi (portOf cfg.addr)
    nodes := s.nodes
    nNodes := s.nNodes
    buf := some s.buf })

/-- The node string does not fit behind the colon. -/
theorem cutNodes_outside (fuel : Nat) {cfg : Config} {front room : List Char}
    (h : room.length ≤ cfg.nodestr.length) : cutNodes fuel cfg front room = none := by
  rw [cutNodes, sprintfAt_outside (by rw [List.length_append]; omega)]
  rfl

section Buffer

variable {cfg : Config} (hfirst : FirstCall cfg)
include hfirst

/-- The address does not fit. -/
theorem cutBuffer_addr_outside (fuel : Nat) (h : bufSize cfg.nodestr < cfg.addr.length + 1) :
    cutBuffer fuel cfg = none := by
  have hcopy : sprintfAt (List.replicate (4 * cfg.nodestr.length % 2 ^ 64) nul) 0 cfg.addr
      = none := by
    refine sprintfAt_outside ?_
    rw [List.length_replicate, ← bufSize]
    omega
  rw [cutBuffer, hfirst.buf, Option.getD_none, hcopy]
  rfl

/-- The address is cut at its colon. -/
theorem cutBuffer_addr (hcolon : ':' ∈ cfg.addr)
    (h : cfg.addr.length + 1 ≤ bufSize cfg.nodestr) :
    ∃ room : List Char, room.length = bufSize cfg.nodestr - ((ipOf cfg.addr).length + 1)
      ∧ ∀ fuel, cutBuffer fuel cfg = cutNodes fuel cfg (ipOf cfg.addr ++ [nul]) room := by
  obtain ⟨haddr, hip⟩ := addr_eq hcolon
  generalize hI : ipOf cfg.addr = ip at *
  generalize hP : portOf cfg.addr = port at *
  have hnul : nul ∉ ip ++ ':' :: port := haddr ▸ hfirst.addr
  have hport : nul ∉ port := fun hm => hnul (List.mem_append_right _ (List.mem_cons_of_mem _ hm))
  generalize htail : (List.replicate (bufSize cfg.nodestr) nul).drop (cfg.addr.length + 1) = tail
  have hcopy : sprintfAt (List.replicate (4 * cfg.nodestr.length % 2 ^ 64) nul) 0 cfg.addr
      = some ([] ++ (ip ++ ':' :: port ++ nul :: tail)) := by
    have hput := sprintfAt_append [] (List.replicate (bufSize cfg.nodestr) nul) cfg.addr
      (by rw [List.length_replicate]; omega)
    rw [htail] at hput
    rw [← haddr]
    exact hput
  have hcut : setAt ([] ++ (ip ++ ':' :: port ++ nul :: tail)) ((0 + ip.length : Nat) : Int) nul
      = some (ip ++ [nul] ++ (port ++ nul :: tail)) := by
    have hmid := setAt_mid ip ':' nul (port ++ nul :: tail)
    rw [Nat.zero_add]
    simpa using hmid
  have hlen : 0 + ip.length + 1 = (ip ++ [nul]).length := by simp
  refine ⟨port ++ nul :: tail, ?_, fun fuel => ?_⟩
  · have hsize := congrArg List.length haddr
    rw [← htail]
    simp only [List.length_append, List.length_cons, List.length_drop, List.length_replicate]
      at hsize ⊢
    omega
  · rw [cutBuffer, hfirst.buf, Option.getD_none, hcopy]
    simp only [Option.bind_eq_bind, Option.bind_some]
    have hfound : strchrAt ([] ++ (ip ++ ':' :: port ++ nul :: tail)) 0 ':'
        = some (some (0 + ip.length)) := @strchrAt_found [] ip port tail ':' hip hnul
    rw [hfound]
    simp only [Option.bind_some]
    rw [hcut]
    simp only [Option.bind_some]
    rw [hlen, List.drop_left, cString_append hport, cutNodes, hP]
    rfl

/-- It fits: the loop cuts the copy of it. -/
theorem cutNodes_fits (fuel : Nat) {front room : List Char} (h : cfg.nodestr.length < room.length) :
    cutNodes fuel cfg front room
      = (loop (splitPass (front.length + cfg.nodestr.length)) fuel
          ⟨front ++ (cfg.nodestr ++ nul :: room.drop (cfg.nodestr.length + 1)), tableOf [], 0,
            front.length⟩).map fun s => (0, { cfg with
              ip := some 0
              port := atoi (portOf cfg.addr)
              nodes := s.nodes
              nNodes := s.nNodes
              buf := some s.buf }) := by
  rw [cutNodes, sprintfAt_append front room _ h, List.append_assoc]
  simp only [Option.bind_eq_bind, Option.bind_some]
  rw [List.drop_left, cString_append hfirst.nodestr, Option.bind_some, hfirst.nodes, hfirst.nNodes]
  exact Option.map_eq_bind.symm

/-- It has too many segments. -/
theorem cutNodes_table (fuel : Nat) {front room : List Char}
    (h : cfg.nodestr.length < room.length) (hmany : NODE_MAX < (segments cfg.nodestr).length) :
    cutNodes fuel cfg front room = none := by
  have hloop := @splitLoop_outside fuel cfg.nodestr front (room.drop (cfg.nodestr.length + 1)) []
    hfirst.nodestr (Nat.zero_le _) (by simpa using hmany)
  rw [cutNodes_fits hfirst fuel h]
  exact (congrArg (Option.map _) hloop).trans rfl

/-- Or it is cut into its segments. -/
theorem cutNodes_spec {front room : List Char} (h : cfg.nodestr.length < room.length)
    (htable : (segments cfg.nodestr).length ≤ NODE_MAX) :
    ∀ fuel, cfg.nodestr.length < fuel → cutNodes fuel cfg front room = some (0, { cfg with
      ip := some 0
      port := atoi (portOf cfg.addr)
      nodes := tableOf (starts front.length (segments cfg.nodestr))
      nNodes := (segments cfg.nodestr).length
      buf := some (front ++ (cut cfg.nodestr ++ nul :: room.drop (cfg.nodestr.length + 1))) }) := by
  obtain ⟨p, hloop⟩ := @splitLoop_spec cfg.nodestr.length cfg.nodestr front
    (room.drop (cfg.nodestr.length + 1)) [] (Nat.le_refl _) hfirst.nodestr
    (by simpa using htable)
  intro fuel hfuel
  rw [cutNodes_fits hfirst fuel h]
  refine (congrArg (Option.map _) (hloop fuel hfuel)).trans ?_
  rw [List.nil_append, length_starts]
  rfl

end Buffer

/-! ## The options -/

theorem FirstCall.option {a : Args} {c : Char} {assign : Args → List Char → Args} {v : List Char}
    (h : FirstCall a.cfg) (hc : optionOf c = some assign) (hv : nul ∉ v) :
    FirstCall (assign a v).cfg := by
  unfold optionOf at hc
  split at hc
  · exact Option.some.inj hc ▸ h
  · exact Option.some.inj hc ▸ ⟨h.buf, h.nodes, h.nNodes, hv, h.nodestr⟩
  · exact Option.some.inj hc ▸ ⟨h.buf, h.nodes, h.nNodes, h.addr, hv⟩
  · exact Option.some.inj hc ▸ h
  · exact Option.some.inj hc ▸ ⟨h.buf, h.nodes, h.nNodes, h.addr, h.nodestr⟩
  · exact absurd hc.symm (Option.some_ne_none _)

/-- Options set texts, and nothing of what the buffer is cut into. -/
theorem FirstCall.parseArgs {args : List (List Char)} {a : Args} (h : FirstCall a.cfg)
    (hargs : ∀ arg ∈ args, nul ∉ arg) : FirstCall (parseArgs args a).cfg := by
  fun_induction PaxosConfig.parseArgs args a with
  | case1 a => exact h
  | case2 rest a c value _ ih => exact ih h fun arg harg => hargs arg (List.mem_cons_of_mem _ harg)
  | case3 a c assign _ => exact h
  | case4 a c assign hc v rest ih =>
      -- the value is the next argument
      have hv : nul ∉ v := hargs v (List.mem_cons_of_mem _ List.mem_cons_self)
      refine ih (h.option hc hv) fun arg harg => ?_
      exact hargs arg (List.mem_cons_of_mem _ (List.mem_cons_of_mem _ harg))
  | case5 rest a c value assign hc _ ih =>
      have hv : nul ∉ value := fun hm => hargs _ List.mem_cons_self
        (List.mem_cons_of_mem _ (List.mem_cons_of_mem _ hm))
      exact ih (h.option hc hv) fun arg harg => hargs arg (List.mem_cons_of_mem _ harg)
  | case6 arg rest a _ ih => exact ih h fun arg harg => hargs arg (List.mem_cons_of_mem _ harg)

theorem nul_notMem_ipOf {addr : List Char} (h : nul ∉ addr) : nul ∉ ipOf addr :=
  fun hm => h ((List.takeWhile_prefix _).subset hm)

theorem gCfgObj_first : FirstCall gCfgObj :=
  ⟨rfl, rfl, rfl, by decide, by decide⟩

/-! ## The first call -/

/-- The node is configured: `ip` is the text before the colon of the address, `port` the
    number behind it, and `nodes` lists the segments of the node string. -/
structure Configures (addr nodestr : List Char) (out : Loaded) : Prop where
  returns : out.rc = 0
  ip : stringAt (out.cfg.buf.getD []) out.cfg.ip = some (ipOf addr)
  port : out.cfg.port = numberOf (portOf addr)
  nNodes : out.cfg.nNodes = (segments nodestr).length
  nodes : (out.cfg.nodes.take (segments nodestr).length).map (stringAt (out.cfg.buf.getD []))
    = (segments nodestr).map some

/-- The call comes to an end without a write outside the buffer or the table, and configures
    the node. -/
def LoadLaw (loglevel : Int) (argv : List (List Char)) (addr nodestr : List Char) : Prop :=
  ∃ out, (∃ enough, ∀ fuel, enough ≤ fuel →
    paxosConfigLoad fuel gCfgObj loglevel argv = some out) ∧ Configures addr nodestr out

/-- The address fits in the buffer, the node string fits behind the colon, and there are not
    more segments than entries. -/
def Room (addr nodestr : List Char) : Prop :=
  addr.length + 1 ≤ bufSize nodestr
    ∧ (ipOf addr).length + 1 + (nodestr.length + 1) ≤ bufSize nodestr
    ∧ (segments nodestr).length ≤ NODE_MAX

instance (addr nodestr : List Char) : Decidable (Room addr nodestr) :=
  inferInstanceAs (Decidable (_ ∧ _ ∧ _))

/-- The number behind the colon is an `int`. -/
def PortFits (addr : List Char) : Prop :=
  intMin ≤ numberOf (portOf addr) ∧ numberOf (portOf addr) ≤ intMax

instance (addr : List Char) : Decidable (PortFits addr) := inferInstanceAs (Decidable (_ ∧ _))

/-- Without room the call faults. -/
theorem cutBuffer_outside {cfg : Config} (hfirst : FirstCall cfg) (hcolon : ':' ∈ cfg.addr)
    (h : ¬ Room cfg.addr cfg.nodestr) (fuel : Nat) : cutBuffer fuel cfg = none := by
  by_cases haddr : cfg.addr.length + 1 ≤ bufSize cfg.nodestr
  · obtain ⟨room, hroom, hcut⟩ := cutBuffer_addr hfirst hcolon haddr
    rw [hcut]
    by_cases hnodes : (ipOf cfg.addr).length + 1 + (cfg.nodestr.length + 1) ≤ bufSize cfg.nodestr
    · exact cutNodes_table hfirst fuel (by omega)
        (Nat.lt_of_not_le fun htable => h ⟨haddr, hnodes, htable⟩)
    · exact cutNodes_outside fuel (by omega)
  · exact cutBuffer_addr_outside hfirst fuel (by omega)

/-- With room it returns, and all of the configuration is right except perhaps the port. -/
theorem load_spec {argv : List (List Char)} (loglevel : Int)
    (hfirst : FirstCall (argsOf gCfgObj argv).cfg)
    (hcolon : ':' ∈ (argsOf gCfgObj argv).cfg.addr)
    (h : Room (argsOf gCfgObj argv).cfg.addr (argsOf gCfgObj argv).cfg.nodestr) :
    ∃ out, (∀ fuel, (argsOf gCfgObj argv).cfg.nodestr.length + 1 ≤ fuel →
        paxosConfigLoad fuel gCfgObj loglevel argv = some out)
      ∧ out.cfg.port = atoi (portOf (argsOf gCfgObj argv).cfg.addr)
      ∧ (out.cfg.port = numberOf (portOf (argsOf gCfgObj argv).cfg.addr) →
        Configures (argsOf gCfgObj argv).cfg.addr (argsOf gCfgObj argv).cfg.nodestr out) := by
  generalize ha : argsOf gCfgObj argv = a at *
  obtain ⟨haddr, hnodes, htable⟩ := h
  have hfirst' : FirstCall { a.cfg with nodeId := (a.nodeidstr.map atoi).getD a.cfg.nodeId } :=
    ⟨hfirst.buf, hfirst.nodes, hfirst.nNodes, hfirst.addr, hfirst.nodestr⟩
  obtain ⟨room, hroom, hcut⟩ := cutBuffer_addr hfirst' hcolon haddr
  have hspec := @cutNodes_spec _ hfirst' (ipOf a.cfg.addr ++ [nul]) room (by simp at hroom ⊢; omega)
    htable
  refine ⟨⟨0, { a.cfg with
    nodeId := (a.nodeidstr.map atoi).getD a.cfg.nodeId
    ip := some 0
    port := atoi (portOf a.cfg.addr)
    nodes := tableOf (starts (ipOf a.cfg.addr ++ [nul]).length (segments a.cfg.nodestr))
    nNodes := (segments a.cfg.nodestr).length
    buf := some (ipOf a.cfg.addr ++ [nul] ++
      (cut a.cfg.nodestr ++ nul :: room.drop (a.cfg.nodestr.length + 1))) },
    (a.loglevelstr.map atoi).getD loglevel, a.stderr⟩,
    fun fuel hfuel => ?_, rfl, fun hport => ⟨rfl, ?_, hport, rfl, ?_⟩⟩
  · rw [paxosConfigLoad, ha]
    simp only [hcut, hspec fuel hfuel]
    rfl
  · show cString (List.drop 0 _) = _
    rw [List.drop_zero, Option.getD_some, List.append_assoc]
    exact cString_append (nul_notMem_ipOf hfirst.addr) _
  · have hread := @starts_read _ a.cfg.nodestr (ipOf a.cfg.addr ++ [nul])
      (room.drop (a.cfg.nodestr.length + 1)) (Nat.le_refl _) hfirst.nodestr
    show ((tableOf _).take _).map _ = _
    rw [tableOf, List.take_left' (by rw [List.length_map, length_starts])]
    exact hread

theorem LoadLaw.room {argv : List (List Char)} {loglevel : Int}
    (hfirst : FirstCall (argsOf gCfgObj argv).cfg)
    (hcolon : ':' ∈ (argsOf gCfgObj argv).cfg.addr)
    (h : LoadLaw loglevel argv (argsOf gCfgObj argv).cfg.addr (argsOf gCfgObj argv).cfg.nodestr) :
    Room (argsOf gCfgObj argv).cfg.addr (argsOf gCfgObj argv).cfg.nodestr := by
  obtain ⟨out, ⟨enough, hrun⟩, _⟩ := h
  by_contra hno
  have hnone := @cutBuffer_outside { (argsOf gCfgObj argv).cfg with
    nodeId := ((argsOf gCfgObj argv).nodeidstr.map atoi).getD (argsOf gCfgObj argv).cfg.nodeId }
    ⟨hfirst.buf, hfirst.nodes, hfirst.nNodes, hfirst.addr, hfirst.nodestr⟩ hcolon hno enough
  have hfault := hrun enough (Nat.le_refl _)
  rw [paxosConfigLoad] at hfault
  simp only [hnone] at hfault
  exact absurd hfault.symm (Option.some_ne_none _)

theorem argsOf_first {argv : List (List Char)} (hargv : ∀ arg ∈ argv, nul ∉ arg) :
    FirstCall (argsOf gCfgObj argv).cfg :=
  gCfgObj_first.parseArgs fun arg harg => hargv arg (List.mem_of_mem_tail harg)

/-- **The first call** does what it is for exactly when everything fits. -/
theorem config_load_iff {argv : List (List Char)} {addr nodestr : List Char} (loglevel : Int)
    (hargv : ∀ arg ∈ argv, nul ∉ arg) (haddr : (argsOf gCfgObj argv).cfg.addr = addr)
    (hnodes : (argsOf gCfgObj argv).cfg.nodestr = nodestr) (hcolon : ':' ∈ addr) :
    LoadLaw loglevel argv addr nodestr ↔ Room addr nodestr ∧ PortFits addr := by
  subst haddr hnodes
  have hfirst := argsOf_first hargv
  constructor
  · intro hlaw
    have hroom := hlaw.room hfirst hcolon
    obtain ⟨out, ⟨enough, hrun⟩, hconf⟩ := hlaw
    obtain ⟨out', hrun', hport, _⟩ := load_spec loglevel hfirst hcolon hroom
    obtain rfl : out = out' := Option.some.inj
      ((hrun _ (Nat.le_max_left _ _)).symm.trans (hrun' _ (Nat.le_max_right _ _)))
    exact ⟨hroom, (atoi_eq_iff _).mp (hport.symm.trans hconf.port)⟩
  · rintro ⟨hroom, hport⟩
    obtain ⟨out, hrun, hatoi, hconf⟩ := load_spec loglevel hfirst hcolon hroom
    exact ⟨out, ⟨_, hrun⟩, hconf (hatoi.trans ((atoi_eq_iff _).mpr hport))⟩

/-- The samples of the comments in `struct paxos_config`. -/
def sampleArgv : List (List Char) :=
  ["paxos".toList, "-a".toList, "127.0.0.1:11111".toList, "-n".toList,
    "127.0.0.1:11111,127.0.0.1:11112".toList]

theorem config_load_sample :
    LoadLaw 1 sampleArgv "127.0.0.1:11111".toList "127.0.0.1:11111,127.0.0.1:11112".toList
      ↔ Room "127.0.0.1:11111".toList "127.0.0.1:11111,127.0.0.1:11112".toList
        ∧ PortFits "127.0.0.1:11111".toList :=
  config_load_iff 1 (by decide) rfl rfl (by decide)

/-- One node with a short name. -/
def shortArgv : List (List Char) :=
  ["paxos".toList, "-a".toList, "127.0.0.1:11111".toList, "-n".toList, "n:1".toList]

/-- The buffer has 12 bytes, and the address takes 16. -/
theorem config_load_outside : ¬ LoadLaw 1 shortArgv "127.0.0.1:11111".toList "n:1".toList := by
  intro hlaw
  have haddr : (argsOf gCfgObj shortArgv).cfg.addr = "127.0.0.1:11111".toList := rfl
  have hnodes : (argsOf gCfgObj shortArgv).cfg.nodestr = "n:1".toList := rfl
  have hroom := @LoadLaw.room shortArgv 1 (argsOf_first (by decide)) (by rw [haddr]; decide)
    (by rw [haddr, hnodes]; exact hlaw)
  rw [haddr, hnodes] at hroom
  exact absurd hroom.1 (by decide)

end PaxosConfig
