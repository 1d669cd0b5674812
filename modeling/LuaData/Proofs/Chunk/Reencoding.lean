import LuaData.Proofs.Chunk.Requests

namespace LuaData

namespace Chunk

def Plain (ms : List Move) : Prop := ∀ m ∈ ms, m.IsPlain

/-- Plain steps take the bytes `w`. Other steps take bytes that differ from these already, whatever
follows. -/
structure Agrees (ms : List Move) (w : List UInt8) : Prop where
  eq : Plain ms → taken ms = w
  plain : ∀ {s t}, taken ms ++ s = w ++ t → Plain ms

section Agrees

variable {m : Move} {ms ms' : List Move} {w w' : List UInt8}

theorem plain_append : Plain (ms ++ ms') ↔ Plain ms ∧ Plain ms' := List.forall_mem_append

theorem plain_cons : Plain (m :: ms) ↔ m.IsPlain ∧ Plain ms := List.forall_mem_cons

theorem plain_singleton : Plain [m] ↔ m.IsPlain := List.forall_mem_singleton

/-- What is written behind plain steps matters only if they are plain. -/
theorem Agrees.append_of_plain (h : Agrees ms w) (h' : Plain ms → Agrees ms' w') :
    Agrees (ms ++ ms') (w ++ w') where
  eq hplain := by
    obtain ⟨hms, hms'⟩ := plain_append.1 hplain
    rw [taken_append, h.eq hms, (h' hms).eq hms']
  plain {s t} he := by
    rw [taken_append, List.append_assoc, List.append_assoc] at he
    have hms := h.plain he
    rw [h.eq hms, List.append_cancel_left_eq] at he
    exact plain_append.2 ⟨hms, (h' hms).plain he⟩

theorem Agrees.append (h : Agrees ms w) (h' : Agrees ms' w') : Agrees (ms ++ ms') (w ++ w') :=
  h.append_of_plain fun _ => h'

theorem plain_take (w : List UInt8) : Plain [.take w] := plain_singleton.2 trivial

theorem agrees_nil : Agrees [] [] where
  eq _ := rfl
  plain _ _ hm := absurd hm List.not_mem_nil

/-- Steps that cannot be taken otherwise. -/
theorem agrees_of_plain (h : Plain ms) : Agrees ms (taken ms) where
  eq _ := rfl
  plain _ := h

theorem Agrees.iff (h : Agrees ms w) : w = taken ms ↔ Plain ms :=
  ⟨fun he => h.plain (congrArg (· ++ []) he.symm), fun hms => (h.eq hms).symm⟩

theorem agrees_take (w : List UInt8) : Agrees [.take w] w := by
  have htaken : taken [.take w] = w := List.append_nil w
  have hagrees : Agrees [.take w] (taken [.take w]) := agrees_of_plain (plain_take w)
  rwa [htaken] at hagrees

theorem agrees_ask (n : Need) : Agrees [.ask n] [] := agrees_of_plain (plain_singleton.2 trivial)

theorem Agrees.ask (h : Agrees ms w) (n : Need) : Agrees (.ask n :: ms) w := (agrees_ask n).append h

/-- A step by as many bytes as would be written. -/
theorem agrees_singleton (h : m.IsPlain ↔ m.bytes = w) (hlength : m.bytes.length = w.length) :
    Agrees [m] w where
  eq hplain := (List.append_nil _).trans (h.1 (plain_singleton.1 hplain))
  plain {s t} he := by
    rw [taken_cons, taken_nil, List.append_nil] at he
    exact plain_singleton.2 (h.2 (List.append_inj he hlength).1)

end Agrees

/-- Whatever steps `x` is read by, what is written for it agrees with them, and there are plain
steps by which it can be read. -/
def Rewrites {α : Type} (course : Course α) (write : α → List UInt8) (x : α) : Prop :=
  ∀ ms, course x ms → Agrees ms (write x) ∧ ∃ ms', course x ms' ∧ Plain ms'

section List

variable {α : Type} {course : Course α} {write : α → List UInt8} {xs : List α}

theorem rewrites_flatten {parts : List (List Move)} (h : ∀ x ∈ xs, Rewrites course write x)
    (hparts : List.Forall₂ course xs parts) :
    Agrees parts.flatten (xs.flatMap write) ∧
      ∃ parts', List.Forall₂ course xs parts' ∧ Plain parts'.flatten := by
  induction hparts with
  | nil => exact ⟨agrees_nil, [], .nil, fun _ hm => absurd hm List.not_mem_nil⟩
  | cons hx _ ih =>
    obtain ⟨h, hrest⟩ := List.forall_mem_cons.1 h
    obtain ⟨hagrees, ms', hms', hplain⟩ := h _ hx
    obtain ⟨hall, parts', hparts', hplains⟩ := ih hrest
    exact ⟨hagrees.append hall, ms' :: parts', .cons hms' hparts', plain_append.2 ⟨hplain, hplains⟩⟩

theorem rewrites_list (b : Block) (h : ∀ x ∈ xs, Rewrites course write x) :
    Rewrites (Course.list b course) (fun xs => writeList xs write) xs := by
  rintro _ ⟨hcount, parts, hparts, rfl⟩
  obtain ⟨hagrees, parts', hparts', hplain⟩ := rewrites_flatten h hparts
  refine ⟨?_, _, ⟨hcount, parts', hparts', rfl⟩,
    plain_cons.2 ⟨trivial, plain_cons.2 ⟨trivial, hplain⟩⟩⟩
  change Agrees _ (writeList xs write)
  rw [writeList, Nat.min_eq_left hcount, List.take_of_length_le hcount]
  exact (agrees_take _).append (hagrees.ask _)

end List

theorem rewrites_int (n : Int32) : Rewrites Course.int writeWord n := by
  rintro _ rfl
  exact ⟨agrees_take _, _, rfl, plain_take _⟩

theorem rewrites_instruction (i : Instruction) :
    Rewrites Course.instruction (fun i => littleEndian 4 i.word.toNat) i := by
  rintro _ rfl
  exact ⟨agrees_take _, _, rfl, plain_take _⟩

theorem rewrites_field (n : Int32) : Rewrites Course.field writeField n := by
  rintro _ ⟨hn, rfl⟩
  refine ⟨?_, _, ⟨hn, rfl⟩, plain_take _⟩
  rw [writeField, if_neg (Int32.not_lt.2 hn)]
  exact agrees_take _

theorem rewrites_flag (b : Bool) : Rewrites Course.flag (fun b => [b.toUInt8]) b := by
  rintro _ ⟨x, rfl, rfl⟩
  refine ⟨agrees_singleton ?_ rfl, [.flag (x != 0).toUInt8], ⟨_, ?_, rfl⟩, plain_singleton.2 ?_⟩
  · -- a byte is written again if it is 0 or 1
    by_cases hx : x = 0
    · subst hx
      decide
    · have hwritten : (x != 0).toUInt8 = 1 := by
        rw [bne_iff_ne.2 hx]
        rfl
      simp [Move.IsPlain, Move.bytes, hx, hwritten]
  all_goals cases x != 0 <;> decide

theorem rewrites_string (s : Option Str) : Rewrites Course.string writeString s := by
  rintro _ h
  cases h with
  | absent => exact ⟨agrees_take _, _, .absent, plain_take _⟩
  | @present s terminator hsize =>
    refine ⟨?_, _, .present 0 hsize, ?_⟩
    · have hterminator : Agrees [.terminator terminator] [0] := by
        refine agrees_singleton ⟨fun h => ?_, fun h => (List.cons.inj h).1⟩ rfl
        exact congrArg (fun x => [x]) h
      rw [writeString, List.append_assoc, ← List.append_nil [0]]
      exact (agrees_take _).append ((agrees_take _).append (hterminator.append (agrees_ask _)))
    · simp [Plain, Move.IsPlain]

theorem rewrites_constant (k : Value) : Rewrites Course.constant writeConstant k := by
  rintro _ h
  cases h with
  | nil => exact ⟨agrees_take _, _, .nil, plain_take _⟩
  | @boolean b ms hms =>
    obtain ⟨hagrees, ms', hms', hplain⟩ := rewrites_flag b ms hms
    exact ⟨(agrees_take [1]).append hagrees, _, .boolean hms', plain_cons.2 ⟨trivial, hplain⟩⟩
  | number x =>
    exact ⟨(agrees_take [3]).append (agrees_take _), _, .number x, by simp [Plain, Move.IsPlain]⟩
  | @string s ms hms =>
    obtain ⟨hagrees, ms', hms', hplain⟩ := rewrites_string (some s) ms hms
    exact ⟨(agrees_take [4]).append hagrees, _, .string hms', plain_cons.2 ⟨trivial, hplain⟩⟩

theorem rewrites_upvalue (u : Upvalue) :
    Rewrites Course.upvalue (fun u => [u.isLocal.toUInt8, u.index]) u := by
  rintro _ ⟨a, ha, rfl⟩
  obtain ⟨hagrees, a', ha', hplain⟩ := rewrites_flag _ a ha
  exact ⟨hagrees.append (agrees_take [u.index]), _, ⟨a', ha', rfl⟩,
    plain_append.2 ⟨hplain, plain_take _⟩⟩

theorem rewrites_localVar (l : LocalVar) : Rewrites Course.localVar writeLocal l := by
  rintro _ ⟨a, b, c, ha, hb, hc, rfl⟩
  obtain ⟨hname, a', ha', hplain⟩ := rewrites_string _ a ha
  obtain ⟨hstart, b', hb', hplain'⟩ := rewrites_field _ b hb
  obtain ⟨hend, c', hc', hplain''⟩ := rewrites_field _ c hc
  rw [writeLocal, List.append_assoc]
  exact ⟨hname.append (hstart.append hend), _, ⟨a', b', c', ha', hb', hc', rfl⟩,
    plain_append.2 ⟨hplain, plain_append.2 ⟨hplain', hplain''⟩⟩⟩

theorem agrees_names {n m : Nat} (hn : n ≤ maxCount) (hm : m ≤ maxCount) :
    Agrees [.names n m] (littleEndian 4 m) := by
  refine agrees_singleton ⟨congrArg (littleEndian 4), fun he => ?_⟩ ?_
  · have hmod := congrArg ofLittleEndian he
    rw [Move.bytes, ofLittleEndian_littleEndian, ofLittleEndian_littleEndian] at hmod
    have hlt : maxCount < 1 <<< (8 * 4) := by decide
    rwa [Nat.mod_eq_of_lt (Nat.lt_of_le_of_lt hn hlt),
      Nat.mod_eq_of_lt (Nat.lt_of_le_of_lt hm hlt)] at hmod
  · rw [Move.bytes, length_littleEndian, length_littleEndian]

theorem absent_replicate (n : Nat) : List.Forall₂ Course.string (List.replicate n none)
    (List.replicate n [.take (littleEndian 8 0)]) := by
  induction n with
  | zero => exact .nil
  | succ n ih => exact .cons .absent ih

/-- All upvalues are named in what is written, some of them by an absent string. -/
theorem rewrites_names {us : List Upvalue} (hus : us.length ≤ maxCount) :
    Rewrites Course.names (fun us => writeList us fun u => writeString u.name) us := by
  rintro _ ⟨named, unnamed, parts, hcount, hparts, hnames, rfl⟩
  obtain ⟨hagrees, parts', hparts', hplain⟩ :=
    rewrites_flatten (fun s _ => rewrites_string s) hparts
  have hlengths := congrArg List.length hnames
  rw [List.length_map, List.length_append, List.length_replicate] at hlengths
  constructor
  · have hwritten : (us.map Upvalue.name).flatMap writeString =
        us.flatMap fun u => writeString u.name := List.flatMap_map ..
    change Agrees _ (writeList us _)
    rw [writeList, Nat.min_eq_left hus, List.take_of_length_le hus, ← hwritten]
    refine (agrees_names hcount hus).append_of_plain fun hall => ?_
    have hlength : named.length = us.length := plain_singleton.1 hall
    obtain rfl : unnamed = 0 := by omega
    rw [hnames, List.replicate_zero, List.append_nil]
    exact hagrees
  · have hall := List.rel_append hparts' (absent_replicate unnamed)
    change List.Forall₂ _ (named ++ _) _ at hall
    rw [← hnames] at hall
    refine ⟨_, ⟨us.map Upvalue.name, 0, _, by rwa [List.length_map], hall, ?_, rfl⟩,
      plain_cons.2 ⟨List.length_map _, ?_⟩⟩
    · rw [List.replicate_zero, List.append_nil]
    · rw [List.flatten_append]
      refine plain_append.2 ⟨hplain, fun m hm => ?_⟩
      obtain ⟨ms, hms, hm⟩ := List.mem_flatten.1 hm
      rw [List.eq_of_mem_replicate hms, List.mem_singleton] at hm
      exact hm ▸ trivial

theorem rewrites_head (f : Body) : Rewrites Course.head writeHead f := by
  rintro _ ⟨hline, hlast, hvararg, hcode, hconstants⟩
  obtain ⟨hline, a, ha, hpa⟩ := rewrites_field _ _ hline
  obtain ⟨hlast, b, hb, hpb⟩ := rewrites_field _ _ hlast
  obtain ⟨hvararg, c, hc, hpc⟩ := rewrites_flag _ _ hvararg
  obtain ⟨hcode, d, hd, hpd⟩ := rewrites_list _ (fun i _ => rewrites_instruction i) _ hcode
  obtain ⟨hconstants, e, he, hpe⟩ := rewrites_list _ (fun k _ => rewrites_constant k) _ hconstants
  refine ⟨?_, _, .mk ha hb hc hd he, ?_⟩
  · have hbytes : writeHead f =
        writeField f.lineDefined ++ (writeField f.lastLineDefined ++ ([f.paramCount] ++
          ([f.isVararg.toUInt8] ++ ([f.maxStack] ++
            (writeList f.code (fun i => littleEndian 4 i.word.toNat) ++
              writeList f.constants writeConstant))))) := by
      simp only [writeHead, List.append_assoc, List.cons_append, List.nil_append]
    rw [hbytes]
    exact (hline.append (hlast.append ((agrees_take _).append (hvararg.append
      ((agrees_take _).append (hcode.append hconstants)))))).ask _
  · refine plain_cons.2 ⟨trivial, ?_⟩
    simp only [plain_append]
    exact ⟨hpa, hpb, plain_take _, hpc, plain_take _, hpd, hpe⟩

theorem rewrites_rest (f : Body) :
    Rewrites Course.rest (fun f => writeUpvalues f ++ writeDebug f false) f := by
  rintro _ ⟨hupvalues, hsource, hlines, hlocals, hnames⟩
  have hcount : f.upvalues.length ≤ maxCount := hupvalues.1
  obtain ⟨hupvalues, a, ha, hpa⟩ := rewrites_list _ (fun u _ => rewrites_upvalue u) _ hupvalues
  obtain ⟨hsource, b, hb, hpb⟩ := rewrites_string _ _ hsource
  obtain ⟨hlines, c, hc, hpc⟩ := rewrites_list _ (fun n _ => rewrites_int n) _ hlines
  obtain ⟨hlocals, d, hd, hpd⟩ := rewrites_list _ (fun l _ => rewrites_localVar l) _ hlocals
  obtain ⟨hnames, e, he, hpe⟩ := rewrites_names hcount _ hnames
  refine ⟨?_, _, .mk ha hb hc hd he, ?_⟩
  · have hbytes : writeDebug f false =
        writeString f.source ++ (writeList f.lines writeWord ++ (writeList f.locals writeLocal ++
          writeList f.upvalues fun u => writeString u.name)) := by
      simp [writeDebug]
    change Agrees _ (writeUpvalues f ++ writeDebug f false)
    rw [hbytes]
    exact hupvalues.append (hsource.append (hlines.append (hlocals.append hnames)))
  · simp only [plain_append]
    exact ⟨hpa, hpb, hpc, hpd, hpe⟩

theorem rewrites_function (p : Prototype) :
    Rewrites Course.function (Prototype.write false) p := by
  induction p with
  | mk body children ih =>
    intro ms hms
    obtain ⟨a, b, c, ha, hb, hc, rfl⟩ := Course.function_mk_iff.1 hms
    obtain ⟨hhead, a', ha', hpa⟩ := rewrites_head body a ha
    obtain ⟨hlist, b', hb', hpb⟩ := rewrites_list _ ih b hb
    obtain ⟨hrest, c', hc', hpc⟩ := rewrites_rest body c hc
    rw [write_mk]
    exact ⟨hhead.append (hlist.append hrest), _,
      Course.function_mk_iff.2 ⟨a', b', c', ha', hb', hc', rfl⟩,
      plain_append.2 ⟨hpa, plain_append.2 ⟨hpb, hpc⟩⟩⟩

theorem rewrites_chunk (p : Prototype) :
    Rewrites Course.chunk (fun p => p.encode false) p := by
  rintro _ ⟨record, hrecord, rfl⟩
  obtain ⟨hagrees, record', hrecord', hplain⟩ := rewrites_function p record hrecord
  exact ⟨(agrees_take header).append hagrees, _, ⟨record', hrecord', rfl⟩,
    plain_cons.2 ⟨trivial, hplain⟩⟩

section Load

variable {c : Collector} {name : String} {bytes : List UInt8} {f : Closure}

/-- What has been loaded can be written and loaded again, which gives the same tree. What is written
is the chunk that has been loaded, the start `a` of the input that has been read, if and only if
every step of reading it is plain: flags are 0 or 1, strings end with a zero byte, and all upvalues
are named. -/
theorem encode_of_load (hf : (load c name bytes).1 = .ok f) :
    (∀ c' name', (c'.HasRoom f.prototype.memory →
        (load c' name' (f.prototype.encode false)).1 ≠ .error .outOfMemory) ∧
      ((load c' name' (f.prototype.encode false)).1 ≠ .error .outOfMemory →
        ∃ f', (load c' name' (f.prototype.encode false)).1 = .ok f' ∧
          f'.prototype.mapStr Str.anonymous = f.prototype.mapStr Str.anonymous)) ∧
    ∃ a q s, scan (displayName name) bytes = .ok q s ∧ bytes = a ++ s.rest ∧
      (∃ ms, Course.chunk f.prototype ms ∧ a = taken ms) ∧
      ∀ ms, Course.chunk f.prototype ms → a = taken ms →
        (f.prototype.encode false = a ↔ Plain ms) := by
  have hload : load c name bytes = (.ok f, (load c name bytes).2) := Prod.ext hf rfl
  obtain ⟨q, s, t, ms, hscan, hserve, heq, -, hms, -, hbytes, hneeds⟩ := course_of_load hload
  have hcourse := chunk_mapStr (keepsTexts_resolve hserve hneeds) hms
  rw [← heq] at hcourse
  constructor
  · intro c' name'
    -- plain steps through what is written show it to be a chunk for the tree
    obtain ⟨-, ms', hms', hplain⟩ := rewrites_chunk f.prototype _ hcourse
    obtain ⟨hagrees, -⟩ := rewrites_chunk f.prototype ms' hms'
    have hform := chunk_form hms'
    rw [hagrees.eq hplain] at hform
    obtain ⟨-, -, -, hacceptable⟩ := form_of_load hf
    have hmemory : (f.prototype.mapStr Str.anonymous).memory ≤ f.prototype.memory := by
      rw [Prototype.mapStr_eq_mapBody]
      exact Prototype.memory_mapBody_le fun b n => Nat.le_of_eq (b.memory_mapStr_anonymous n)
    exact (load_of_form (List.prefix_refl _) hform (acceptable_mapStr_iff.2 hacceptable)).imp_left
      fun hroom h => hroom (h.mono hmemory)
  · refine ⟨taken ms, q, s, hscan, hbytes, ⟨_, hcourse, (taken_map_mapStr ..).symm⟩, ?_⟩
    intro ms' hms' htaken
    rw [htaken]
    exact (rewrites_chunk f.prototype ms' hms').1.iff

end Load

/-- A chunk in which a flag is 0xff, and a byte behind it. -/
def lax : List UInt8 :=
  ((sample ⟨0x0080001f⟩).encode false).set (header.length + 9) 0xff ++ [0x2a]

theorem encode_of_load_lax : ∃ f, (load (.new 1 Collector.unlimited) "@lax" lax).1 = .ok f ∧
    (∃ f', (load (.new 2 Collector.unlimited) "@again" (f.prototype.encode false)).1 = .ok f' ∧
      f'.prototype.mapStr Str.anonymous = f.prototype.mapStr Str.anonymous) ∧
    ∃ ms rest, Course.chunk f.prototype ms ∧ lax = taken ms ++ rest ∧ ¬Plain ms := by
  obtain ⟨f, hf⟩ : ∃ f, (load (.new 1 Collector.unlimited) "@lax" lax).1 = .ok f :=
    eq_ok_of_isSome (by decide +kernel)
  obtain ⟨hagain, _, q, s, -, hbytes, ⟨ms, hms, rfl⟩, hiff⟩ := encode_of_load hf
  have hfacts : (load (.new 1 Collector.unlimited) "@lax" lax).1.toOption.map (fun f =>
      decide (f.prototype.memory ≤ Collector.unlimited ∧ ¬f.prototype.encode false <+: lax)) =
      some true := by decide +kernel
  rw [hf] at hfacts
  obtain ⟨hmemory, hother⟩ := of_decide_eq_true (Option.some.inj hfacts)
  obtain ⟨hroom, hload⟩ := hagain (.new 2 Collector.unlimited) "@again"
  refine ⟨f, hf, hload (hroom ⟨fun _ => rfl, ?_⟩), ms, s.rest, hms, hbytes, fun hplain => ?_⟩
  · change 0 + _ ≤ Collector.unlimited
    rwa [Int.zero_add]
  · rw [← (hiff ms hms rfl).2 hplain] at hbytes
    exact hother ⟨s.rest, hbytes.symm⟩

end Chunk

end LuaData
