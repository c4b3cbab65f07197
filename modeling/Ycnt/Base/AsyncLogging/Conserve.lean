import Ycnt.Base.AsyncLogging.Locks
/-!
# The asynchronous logger keeps its messages

The lines of a bucket are, in the order its mutex was taken, those of the buffers
handed over and then those of its own buffer. The buffers handed over are retired
(written or dropped) in that order. A recycled buffer is empty.
-/

namespace Ycnt

open Function

variable {n : Nat}

namespace LogBuffer

variable {b : Fin n} {buf : LogBuffer n} {l : Line}

/-- The lines of bucket `b` in a buffer. -/
def linesOf (b : Fin n) (buf : LogBuffer n) : List Line := (buf.lines.filter (·.1 = b)).map (·.2)

/-- The bytes of a buffer are those of its lines, each whole. -/
def Whole (buf : LogBuffer n) : Prop := buf.buffer.contents = buf.lines.flatMap (·.2.bytes)

structure Empty (buf : LogBuffer n) : Prop where
  length : buf.buffer.length = 0
  lines : buf.lines = []

theorem new_empty : (new : LogBuffer n).Empty := ⟨rfl, rfl⟩

theorem reset_empty : buf.reset.Empty := ⟨rfl, rfl⟩

theorem getD_new_empty {o : Option (LogBuffer n)} (h : ∀ buf, o = some buf → buf.Empty) : (o.getD new).Empty := by
  cases o with
  | none => exact new_empty
  | some buf => exact h buf rfl

theorem Empty.contents (h : buf.Empty) : buf.buffer.contents = [] :=
  List.eq_nil_of_length_eq_zero ((FixedBuffer.contents_length _).trans h.length)

theorem Empty.whole (h : buf.Empty) : buf.Whole := by
  unfold Whole
  rw [h.contents, h.lines]
  rfl

theorem Empty.linesOf (h : buf.Empty) : buf.linesOf b = [] := by
  unfold LogBuffer.linesOf
  rw [h.lines]
  rfl

/-- An empty buffer has room for every line. -/
theorem Empty.le_avail (h : buf.Empty) : l.len ≤ buf.buffer.avail := by
  have h0 := h.length
  have hl := l.len_le
  have := buf.buffer.length_add_avail
  omega

theorem linesOf_append : (buf.append b l).linesOf b = buf.linesOf b ++ [l] := by
  simp [linesOf, append]

theorem Whole.append (h : buf.Whole) (hl : l.len ≤ buf.buffer.avail) : (buf.append b l).Whole := by
  unfold Whole at h ⊢
  simp only [LogBuffer.append, List.flatMap_append, List.flatMap_singleton]
  rw [FixedBuffer.contents_append_of_le _ _ hl, h]
  rfl

end LogBuffer

/-- The lines of bucket `b` in a list of buffers. -/
def linesOf (b : Fin n) (bufs : List (LogBuffer n)) : List Line := bufs.flatMap (·.linesOf b)

@[simp] theorem linesOf_nil (b : Fin n) : linesOf b [] = [] := rfl

@[simp] theorem linesOf_append (b : Fin n) (bufs bufs' : List (LogBuffer n)) :
    linesOf b (bufs ++ bufs') = linesOf b bufs ++ linesOf b bufs' :=
  List.flatMap_append

@[simp] theorem linesOf_singleton (b : Fin n) (buf : LogBuffer n) : linesOf b [buf] = buf.linesOf b :=
  List.flatMap_singleton _ _

theorem linesOf_empty {b : Fin n} {bufs : List (LogBuffer n)} (h : ∀ buf ∈ bufs, buf.Empty) : linesOf b bufs = [] :=
  List.flatMap_eq_nil_iff.2 fun buf hb => (h buf hb).linesOf

/-! ## Lines are stored in order -/

/-- What was appended to a bucket stands in the buffers it has handed over and
then in its own, which holds nothing else. -/
structure Stored (appended : Fin n → List Line) (handed : List (LogBuffer n)) (node : Fin n → Option (LogBuffer n)) :
    Prop where
  lines : ∀ b, appended b = linesOf b handed ++ linesOf b (node b).toList
  own : ∀ b buf, node b = some buf → ∀ p ∈ buf.lines, p.1 = b
  node_whole : ∀ b buf, node b = some buf → buf.Whole
  handed_whole : ∀ buf ∈ handed, buf.Whole

namespace Stored

variable {appended : Fin n → List Line} {handed : List (LogBuffer n)} {node : Fin n → Option (LogBuffer n)}
  {b : Fin n} {buf : LogBuffer n} {l : Line}

theorem store (h : Stored appended handed node) (hb : node b = some buf) (hl : l.len ≤ buf.buffer.avail) :
    Stored (update appended b (appended b ++ [l])) handed (update node b (some (buf.append b l))) := by
  constructor
  · intro b'
    by_cases hbb : b' = b
    · subst hbb
      have := h.lines b'
      rw [hb] at this
      simp only [update_self, Option.toList_some, linesOf_singleton] at this ⊢
      rw [this, LogBuffer.linesOf_append, List.append_assoc]
    · simpa [hbb] using h.lines b'
  · intro b' buf' hb'
    by_cases hbb : b' = b
    · subst hbb
      obtain rfl : buf.append b' l = buf' := by simpa using hb'
      intro p hp
      rcases List.mem_append.1 hp with hp | hp
      · exact h.own b' buf hb p hp
      · rw [List.mem_singleton.1 hp]
    · exact h.own b' buf' (by simpa [hbb] using hb')
  · intro b' buf' hb'
    by_cases hbb : b' = b
    · subst hbb
      obtain rfl : buf.append b' l = buf' := by simpa using hb'
      exact (h.node_whole b' buf hb).append hl
    · exact h.node_whole b' buf' (by simpa [hbb] using hb')
  · exact h.handed_whole

/-- A bucket's buffer has no lines of another bucket. -/
theorem linesOf_of_ne (h : Stored appended handed node) (hb : node b = some buf) {b' : Fin n} (hbb : b' ≠ b) :
    buf.linesOf b' = [] := by
  simp only [LogBuffer.linesOf, List.map_eq_nil_iff, List.filter_eq_nil_iff, decide_eq_true_eq]
  intro p hp hpb
  exact hbb (hpb.symm.trans (h.own b buf hb p hp))

theorem handOver (h : Stored appended handed node) (hb : node b = some buf) :
    Stored appended (handed ++ [buf]) (update node b none) := by
  constructor
  · intro b'
    rw [h.lines b']
    by_cases hbb : b' = b
    · subst hbb
      simp [hb]
    · simp [hbb, h.linesOf_of_ne hb hbb]
  · intro b' buf' hb'
    by_cases hbb : b' = b
    · simp [hbb] at hb'
    · exact h.own b' buf' (by simpa [hbb] using hb')
  · intro b' buf' hb'
    by_cases hbb : b' = b
    · simp [hbb] at hb'
    · exact h.node_whole b' buf' (by simpa [hbb] using hb')
  · intro buf' hm
    rcases List.mem_append.1 hm with hm | hm
    · exact h.handed_whole buf' hm
    · rw [List.mem_singleton.1 hm]
      exact h.node_whole b buf hb

theorem refill (h : Stored appended handed node) (hb : node b = none) (he : buf.Empty) :
    Stored appended handed (update node b (some buf)) := by
  constructor
  · intro b'
    rw [h.lines b']
    by_cases hbb : b' = b
    · subst hbb
      simp [hb, he.linesOf]
    · simp [hbb]
  · intro b' buf' hb'
    by_cases hbb : b' = b
    · subst hbb
      obtain rfl : buf = buf' := by simpa using hb'
      simp [he.lines]
    · exact h.own b' buf' (by simpa [hbb] using hb')
  · intro b' buf' hb'
    by_cases hbb : b' = b
    · subst hbb
      obtain rfl : buf = buf' := by simpa using hb'
      exact he.whole
    · exact h.node_whole b' buf' (by simpa [hbb] using hb')
  · exact h.handed_whole

end Stored

/-! ## Empty buffers go round -/

theorem nothing_carried {carried : Option (LogBuffer n)} (h : carried = none) :
    ∀ buf, carried = some buf → buf.Empty := by
  intro buf hc
  rw [h] at hc
  cases hc

structure Pooled (emptyBuffers : List (LogBuffer n)) (front : Nat → AppendPc n) (back : BackPc n) : Prop where
  pool : ∀ buf ∈ emptyBuffers, buf.Empty
  front : ∀ tid buf, (front tid).carried = some buf → buf.Empty
  back : ∀ buf, back.carried = some buf → buf.Empty

namespace Pooled

variable {emptyBuffers : List (LogBuffer n)} {front : Nat → AppendPc n} {back : BackPc n} {tid : Nat}

/-- A thread moves on with what is empty, if with any buffer. -/
theorem setFront {pc : AppendPc n} (h : Pooled emptyBuffers front back) (hpc : ∀ buf, pc.carried = some buf → buf.Empty) :
    Pooled emptyBuffers (update front tid pc) back := by
  refine ⟨h.pool, fun u buf hu => ?_, h.back⟩
  by_cases hut : u = tid
  · subst hut
    exact hpc buf (by simpa using hu)
  · exact h.front u buf (by simpa [hut] using hu)

theorem setBack {pc : BackPc n} (h : Pooled emptyBuffers front back) (hpc : ∀ buf, pc.carried = some buf → buf.Empty) :
    Pooled emptyBuffers front pc :=
  ⟨h.pool, h.front, hpc⟩

theorem tail (h : Pooled emptyBuffers front back) : Pooled emptyBuffers.tail front back :=
  ⟨fun buf hb => h.pool buf (List.mem_of_mem_tail hb), h.front, h.back⟩

theorem head (h : Pooled emptyBuffers front back) {buf : LogBuffer n} (hb : emptyBuffers.head? = some buf) : buf.Empty :=
  h.pool buf (List.mem_of_mem_head? hb)

end Pooled

/-! ## A round of the back end -/

/-- The buffers in `backBuffers_`, those of them still to be written, and the dropped ones. -/
def Round (phase : BackPc.Phase) (backBuffers unwritten dropping : List (LogBuffer n)) : Prop :=
  match phase with
  | .clear => backBuffers = [] ∧ unwritten = [] ∧ dropping = []
  | .taken => unwritten = backBuffers ∧ dropping = []
  | .writing k => k ≤ backBuffers.length ∧ unwritten = backBuffers.drop k ∧ ∀ buf ∈ backBuffers.take k, buf.Empty
  | .recycling => unwritten = [] ∧ dropping = [] ∧ ∀ buf ∈ backBuffers, buf.Empty

namespace Round

variable {backBuffers unwritten dropping : List (LogBuffer n)} {buf : LogBuffer n} {k : Nat}

/-- The lines in `backBuffers_` are those still to be written. -/
theorem lines {phase : BackPc.Phase} (h : Round phase backBuffers unwritten dropping) (b : Fin n) :
    linesOf b backBuffers = linesOf b unwritten := by
  cases phase with
  | clear => rw [h.1, h.2.1]
  | taken => rw [h.1]
  | writing k =>
    obtain ⟨-, hu, he⟩ := h
    conv_lhs => rw [← List.take_append_drop k backBuffers]
    rw [linesOf_append, linesOf_empty he, hu, List.nil_append]
  | recycling => rw [h.1, linesOf_empty h.2.2, linesOf_nil]

theorem write (h : Round (.writing k) backBuffers unwritten dropping) (hk : backBuffers[k]? = some buf) :
    unwritten = buf :: unwritten.tail ∧
      Round (.writing (k + 1)) (backBuffers.set k buf.reset) unwritten.tail dropping := by
  obtain ⟨-, hu, he⟩ := h
  obtain ⟨hlt, hbuf⟩ := List.getElem?_eq_some_iff.1 hk
  have hcons : unwritten = buf :: backBuffers.drop (k + 1) := by
    rw [hu, List.drop_eq_getElem_cons hlt, hbuf]
  have htail : unwritten.tail = backBuffers.drop (k + 1) := by rw [hcons, List.tail_cons]
  refine ⟨by rw [htail]; exact hcons, by rw [List.length_set]; exact hlt, ?_, ?_⟩
  · rw [htail, List.drop_set_of_lt (Nat.lt_succ_self k)]
  · intro buf' hm
    rw [List.take_succ_eq_append_getElem (by simpa using hlt), List.take_set_of_le (Nat.le_refl k)] at hm
    rcases List.mem_append.1 hm with hm | hm
    · exact he buf' hm
    · simp only [List.getElem_set_self, List.mem_singleton] at hm
      exact hm ▸ LogBuffer.reset_empty

/-- The loop that writes ends with everything written and reset. -/
theorem written (h : Round (.writing k) backBuffers unwritten dropping) (hk : backBuffers[k]? = none) :
    unwritten = [] ∧ Round .recycling backBuffers unwritten ([] : List (LogBuffer n)) := by
  obtain ⟨-, hu, he⟩ := h
  have hlen := List.getElem?_eq_none_iff.1 hk
  have hnil : unwritten = [] := by rw [hu, List.drop_eq_nil_of_le hlen]
  rw [List.take_of_length_le hlen] at he
  exact ⟨hnil, hnil, rfl, he⟩

theorem pop (h : Round .recycling backBuffers unwritten dropping) (hb : backBuffers.getLast? = some buf) :
    buf.Empty ∧ Round .recycling backBuffers.dropLast unwritten dropping := by
  obtain ⟨hu, hd, he⟩ := h
  exact ⟨he buf (List.mem_of_getLast? hb), hu, hd, fun buf' hm => he buf' (List.mem_of_mem_dropLast hm)⟩

end Round

/-! ## The file -/

def FileAppend.buffer? : FileAppend → Option (List UInt8)
  | .notice _ _ => none
  | .buffer bytes => some bytes

/-- The number of buffers that a `Dropped log messages` notice announces. -/
def FileAppend.dropped : FileAppend → Nat
  | .notice _ count => count
  | .buffer _ => 0

/-- The file has the written buffers, in the order they were handed over, and the
notices count the others that are done with. -/
structure Filed (output : List FileAppend) (retired dropping written : List (LogBuffer n)) : Prop where
  buffers : output.filterMap FileAppend.buffer? = written.map (·.buffer.contents)
  order : written.Sublist retired
  count : retired.length + dropping.length = written.length + (output.map FileAppend.dropped).sum

namespace Filed

variable {output : List FileAppend} {retired dropping written : List (LogBuffer n)} {buf : LogBuffer n}

theorem notice (h : Filed output retired [] written) (now : String) :
    Filed (output ++ [.notice now dropping.length]) retired dropping written := by
  refine ⟨?_, h.order, ?_⟩
  · rw [List.filterMap_append, h.buffers]
    simp [FileAppend.buffer?]
  · have := h.count
    simp only [List.length_nil, List.map_append, List.map_cons, List.map_nil, List.sum_append, List.sum_cons,
      List.sum_nil, FileAppend.dropped] at this ⊢
    omega

theorem write (h : Filed output retired dropping written) :
    Filed (output ++ [.buffer buf.buffer.contents]) (retired ++ [buf]) dropping (written ++ [buf]) := by
  refine ⟨?_, h.order.append (List.Sublist.refl _), ?_⟩
  · simp [FileAppend.buffer?, h.buffers]
  · have := h.count
    simp only [List.length_append, List.length_singleton, List.map_append, List.map_cons, List.map_nil, List.sum_append,
      List.sum_cons, List.sum_nil, FileAppend.dropped]
    omega

theorem retire (h : Filed output retired dropping written) : Filed output (retired ++ dropping) [] written := by
  refine ⟨h.buffers, h.order.trans (List.sublist_append_left _ _), ?_⟩
  have := h.count
  simp only [List.length_append, List.length_nil]
  omega

end Filed

/-! ## A line whose bucket's mutex is taken is stored next -/

theorem AppendPc.held_of_underway {pc : AppendPc n} {b : Fin n} {l : Line} (h : pc.underway = some (b, l)) :
    .node b ∈ pc.held := by
  cases pc <;> simp_all [underway, held]

structure Taken (taken appended : Fin n → List Line) (front : Nat → AppendPc n) : Prop where
  free : ∀ b, (∀ tid l, (front tid).underway ≠ some (b, l)) → taken b = appended b
  busy : ∀ b tid l, (front tid).underway = some (b, l) → taken b = appended b ++ [l]

namespace Taken

variable {taken appended : Fin n → List Line} {front : Nat → AppendPc n} {tid : Nat} {b : Fin n} {l : Line}
  {pc₀ pc : AppendPc n}

theorem move (h : Taken taken appended front) (hpc : front tid = pc₀) (hu : pc.underway = pc₀.underway) :
    Taken taken appended (update front tid pc) := by
  have heq : ∀ u, (update front tid pc u).underway = (front u).underway := by
    intro u
    by_cases hut : u = tid
    · subst hut
      rw [update_self, hu, hpc]
    · rw [update_of_ne hut]
  refine ⟨fun b hb => h.free b fun u l => ?_, fun b u l hb => h.busy b u l ?_⟩
  · rw [← heq]
    exact hb u l
  · rw [← heq]
    exact hb

/-- `tid` takes the mutex of bucket `b`, where no thread has a line to store. -/
theorem take (h : Taken taken appended front) (hfree : ∀ u l, (front u).underway ≠ some (b, l))
    (hpc : front tid = pc₀) (h₀ : pc₀.underway = none) (hu : pc.underway = some (b, l)) :
    Taken (update taken b (taken b ++ [l])) appended (update front tid pc) := by
  refine ⟨fun b' hb => ?_, fun b' u l' hb => ?_⟩
  · have hne : b' ≠ b := by
      rintro rfl
      exact hb tid l (by rw [update_self, hu])
    rw [update_of_ne hne]
    refine h.free b' fun u l' hl' => ?_
    have hut : u ≠ tid := by
      rintro rfl
      rw [hpc, h₀] at hl'
      cases hl'
    exact hb u l' (by rw [update_of_ne hut, hl'])
  · by_cases hut : u = tid
    · subst hut
      rw [update_self, hu] at hb
      obtain ⟨rfl, rfl⟩ : b = b' ∧ l = l' := by simpa using hb
      rw [update_self, h.free b hfree]
    · rw [update_of_ne hut] at hb
      have hne : b' ≠ b := by
        rintro rfl
        exact hfree u l' hb
      rw [update_of_ne hne]
      exact h.busy b' u l' hb

/-- `tid` stores its line in bucket `b`, where no other thread has one to store. -/
theorem store (h : Taken taken appended front) (hother : ∀ u l', (front u).underway = some (b, l') → u = tid)
    (hpc : (front tid).underway = some (b, l)) (hu : pc.underway = none) :
    Taken taken (update appended b (appended b ++ [l])) (update front tid pc) := by
  refine ⟨fun b' hb => ?_, fun b' u l' hb => ?_⟩
  · by_cases hbb : b' = b
    · subst hbb
      rw [update_self, h.busy b' tid l hpc]
    · rw [update_of_ne hbb]
      refine h.free b' fun u l' hl' => ?_
      have hut : u ≠ tid := by
        rintro rfl
        rw [hpc] at hl'
        exact hbb (by simpa using (congrArg (·.map Prod.fst) hl').symm)
      exact hb u l' (by rw [update_of_ne hut, hl'])
  · have hut : u ≠ tid := by
      rintro rfl
      rw [update_self, hu] at hb
      cases hb
    rw [update_of_ne hut] at hb
    have hne : b' ≠ b := by
      rintro rfl
      exact hut (hother u l' hb)
    rw [update_of_ne hne]
    exact h.busy b' u l' hb

end Taken

/-! ## Every step conserves -/

namespace AsyncState

variable {s s' : AsyncState n} {tid : Nat} {b : Fin n}

structure Conserved (s : AsyncState n) : Prop where
  stored : Stored s.appended s.handed s.node
  queue : s.handed = s.retired ++ s.unwritten ++ s.dropping ++ s.frontBuffers
  pooled : Pooled s.emptyBuffers s.front s.back
  round : Round s.back.phase s.backBuffers s.unwritten s.dropping
  filed : Filed s.output s.retired s.dropping s.written

theorem create_conserved : (create : AsyncState n).Conserved where
  stored :=
    { lines := fun b => by simp [create, LogBuffer.new_empty.linesOf]
      own := fun b buf hb => by
        obtain rfl : LogBuffer.new = buf := by simpa [create] using hb
        simp [LogBuffer.new]
      node_whole := fun b buf hb => by
        obtain rfl : LogBuffer.new = buf := by simpa [create] using hb
        exact LogBuffer.new_empty.whole
      handed_whole := fun buf hm => by simp [create] at hm }
  queue := rfl
  pooled :=
    { pool := fun buf hm => List.eq_of_mem_replicate hm ▸ LogBuffer.new_empty
      front := fun tid buf hc => by cases hc
      back := fun buf hc => by cases hc }
  round := ⟨rfl, rfl, rfl⟩
  filed := ⟨rfl, List.Sublist.refl _, rfl⟩

theorem Conserved.moveFront (h : s.Conserved) (mutex : LogLock n → Option LogThread) {pc : AppendPc n}
    (hc : ∀ buf, pc.carried = some buf → buf.Empty) :
    ({ s with mutex, front := update s.front tid pc } : AsyncState n).Conserved :=
  ⟨h.stored, h.queue, h.pooled.setFront hc, h.round, h.filed⟩

theorem Conserved.moveBack (h : s.Conserved) (mutex : LogLock n → Option LogThread) {pc : BackPc n}
    (hp : pc.phase = s.back.phase) (hc : ∀ buf, pc.carried = some buf → buf.Empty) :
    ({ s with mutex, back := pc } : AsyncState n).Conserved :=
  ⟨h.stored, h.queue, h.pooled.setBack hc, hp ▸ h.round, h.filed⟩

/-- The back end neither takes a buffer up nor changes its phase. -/
theorem Conserved.quietBack (h : s.Conserved) (mutex : LogLock n → Option LogThread) {pc : BackPc n}
    (hq : s.back.Quiet pc) : ({ s with mutex, back := pc } : AsyncState n).Conserved := by
  refine h.moveBack mutex hq.phase fun buf hc => ?_
  rcases hq.carried with hn | hb
  · exact nothing_carried hn buf hc
  · exact h.pooled.back buf (hb ▸ hc)

theorem Conserved.notified (h : s.Conserved) : ({ s with back := s.back.notified } : AsyncState n).Conserved :=
  h.quietBack s.mutex s.back.quiet_notified

/-- Both paths that hand a bucket's buffer over. -/
theorem Conserved.emplaceFront (h : s.Conserved) {buf : LogBuffer n} (hb : s.node b = some buf) :
    (s.emplaceFront b buf).Conserved where
  stored := h.stored.handOver hb
  queue := by
    show s.handed ++ [buf] = _ ++ (s.frontBuffers ++ [buf])
    rw [h.queue, List.append_assoc]
    rfl
  pooled := h.pooled
  round := h.round
  filed := h.filed

theorem Conserved.store (h : s.Conserved) {buf : LogBuffer n} {l : Line} (hb : s.node b = some buf)
    (hl : l.len ≤ buf.buffer.avail) : (s.store b buf l).Conserved :=
  ⟨h.stored.store hb hl, h.queue, h.pooled, h.round, h.filed⟩

theorem frontStep_conserved (hlocks : s.Locks) (h : s.Conserved) (hs : s.frontStep tid = some s') : s'.Conserved := by
  cases frontStep_inv hs with
  | lock _ _ hq => exact h.moveFront _ (nothing_carried hq.carried)
  | unlock _ hq => exact h.moveFront _ (nothing_carried hq.carried)
  | move _ hq => exact h.moveFront _ (nothing_carried hq.carried)
  | take => exact ⟨h.stored, h.queue, h.pooled.setFront (nothing_carried rfl), h.round, h.filed⟩
  | store _ hbuf hlt => exact (h.store hbuf (Nat.le_of_lt hlt)).moveFront _ (nothing_carried rfl)
  | handOver _ hbuf => exact ((h.emplaceFront hbuf).moveFront _ (nothing_carried rfl)).notified
  | tryPop => exact ⟨h.stored, h.queue, h.pooled.tail.setFront fun _ => h.pooled.head, h.round, h.filed⟩
  | @refill b l o hpc =>
    have hnone : s.node b = none := (hlocks.gaps b).2 ⟨.front tid, by simp [gap, hpc, AppendPc.gap]⟩
    have he : (o.getD .new).Empty :=
      LogBuffer.getD_new_empty fun buf hc => h.pooled.front tid buf (by rw [hpc]; exact hc)
    have hst := (h.stored.refill hnone he).store (update_self b _ _) (l := l) he.le_avail
    rw [update_idem] at hst
    exact ⟨hst, h.queue, h.pooled.setFront (nothing_carried rfl), h.round, h.filed⟩

theorem frontStep_taken (hlocks : s.Locks) (h : Taken s.taken s.appended s.front) (hs : s.frontStep tid = some s') :
    Taken s'.taken s'.appended s'.front := by
  have hheld : ∀ {u b l}, (s.front u).underway = some (b, l) → .node b ∈ held s.front s.back (.front u) :=
    AppendPc.held_of_underway
  have hother : ∀ {b l}, (s.front tid).underway = some (b, l) → ∀ u l', (s.front u).underway = some (b, l') → u = tid :=
    fun ht u _ hu => LogThread.front.inj (hlocks.owned.unique (hheld hu) (hheld ht))
  cases frontStep_inv hs with
  | lock _ _ hq => exact h.move rfl hq.underway
  | unlock _ hq => exact h.move rfl hq.underway
  | move _ hq => exact h.move rfl hq.underway
  | take hpc hl =>
    refine h.take (fun u l' hu => ?_) hpc rfl rfl
    have := (hlocks.owned _ _).2 (hheld hu)
    rw [hl] at this
    cases this
  | @store b l buf hpc =>
    have hu : (s.front tid).underway = some (b, l) := by rw [hpc]; rfl
    exact h.store (hother hu) hu rfl
  | handOver hpc => exact h.move hpc rfl
  | tryPop hpc => exact h.move hpc rfl
  | @refill b l o hpc =>
    have hu : (s.front tid).underway = some (b, l) := by rw [hpc]; rfl
    exact h.store (hother hu) hu rfl

theorem dropBack_conserved {now : String} (h : s.Conserved) (hpc : s.back = .dropTest) :
    ((s.dropBack now).setBack (.write 0)).Conserved := by
  obtain ⟨hu, hd⟩ : s.unwritten = s.backBuffers ∧ s.dropping = [] := by
    have := h.round
    rwa [hpc] at this
  have hq : s.handed = s.retired ++ s.unwritten ++ s.frontBuffers := by
    rw [h.queue, hd, List.append_nil]
  have hpool : Pooled s.emptyBuffers s.front (.write 0) := h.pooled.setBack (nothing_carried rfl)
  unfold dropBack
  split
  · have hlen : (s.unwritten.drop 2).length = s.backBuffers.length - 2 := by rw [List.length_drop, hu]
    refine ⟨h.stored, ?_, hpool, ⟨Nat.zero_le _, ?_, by simp⟩, ?_⟩
    · show s.handed = s.retired ++ s.unwritten.take 2 ++ s.unwritten.drop 2 ++ s.frontBuffers
      rw [hq, List.append_assoc s.retired (s.unwritten.take 2), List.take_append_drop]
    · show s.unwritten.take 2 = s.backBuffers.take 2
      rw [hu]
    · have hf := h.filed
      rw [hd] at hf
      have hn : Filed _ s.retired (s.unwritten.drop 2) s.written := hf.notice now
      rwa [hlen] at hn
  · exact ⟨h.stored, h.queue, hpool, ⟨Nat.zero_le _, hu, by simp⟩, h.filed⟩

theorem backStep_conserved {now : String} (hlocks : s.Locks) (h : s.Conserved) (hs : s.backStep now = some s') :
    s'.Conserved := by
  have hr := h.round
  cases backStep_inv hs with
  | lock _ _ hq => exact h.quietBack _ hq
  | unlock _ hq => exact h.quietBack _ hq
  | move _ hq => exact h.quietBack _ hq
  | handOver hpc hbuf =>
    exact (h.emplaceFront hbuf).moveBack _ (by simp [emplaceFront, hpc, BackPc.phase]) (nothing_carried rfl)
  | tryPop hpc =>
    rw [hpc] at hr
    exact ⟨h.stored, h.queue, h.pooled.tail.setBack fun _ => h.pooled.head, hr, h.filed⟩
  | @refill b o hpc =>
    have hnone : s.node b = none := (hlocks.gaps b).2 ⟨.back, by simp [gap, hpc, BackPc.gap]⟩
    have he : (o.getD .new).Empty := LogBuffer.getD_new_empty fun buf hc => h.pooled.back buf (by rw [hpc]; exact hc)
    rw [hpc] at hr
    exact ⟨h.stored.refill hnone he, h.queue, h.pooled.setBack (nothing_carried rfl), hr, h.filed⟩
  | swap hpc =>
    rw [hpc] at hr
    obtain ⟨hb, hu, hd⟩ := hr
    refine ⟨h.stored, ?_, h.pooled.setBack (nothing_carried rfl), ⟨rfl, hd⟩, h.filed⟩
    show s.handed = s.retired ++ s.frontBuffers ++ s.dropping ++ s.backBuffers
    simp [h.queue, hb, hu, hd]
  | drop hpc => exact dropBack_conserved h hpc
  | @write k buf hpc hk =>
    rw [hpc] at hr
    obtain ⟨hcons, hr'⟩ := Round.write hr hk
    refine ⟨h.stored, ?_, h.pooled.setBack (nothing_carried rfl), hr', h.filed.write⟩
    show s.handed = s.retired ++ [buf] ++ s.unwritten.tail ++ s.dropping ++ s.frontBuffers
    rw [h.queue, hcons]
    simp
  | written hpc hk =>
    rw [hpc] at hr
    obtain ⟨hnil, hr'⟩ := Round.written hr hk
    refine ⟨h.stored, ?_, h.pooled.setBack (nothing_carried rfl), hr', h.filed.retire⟩
    show s.handed = s.retired ++ s.dropping ++ s.unwritten ++ [] ++ s.frontBuffers
    rw [h.queue, hnil]
    simp
  | recycle hpc hb =>
    rw [hpc] at hr
    obtain ⟨he, hr'⟩ := Round.pop hr hb
    exact ⟨h.stored, h.queue, h.pooled.setBack fun _ hc => Option.some.inj hc ▸ he, hr', h.filed⟩
  | recycled hpc hb =>
    rw [hpc] at hr
    obtain ⟨hu, hd, -⟩ := hr
    exact ⟨h.stored, h.queue, h.pooled.setBack (nothing_carried rfl), ⟨List.getLast?_eq_none_iff.1 hb, hu, hd⟩, h.filed⟩
  | @push buf hpc =>
    rw [hpc] at hr
    refine ⟨h.stored, h.queue, ⟨fun buf' hm => ?_, h.pooled.front, nothing_carried rfl⟩, hr, h.filed⟩
    rcases List.mem_append.1 hm with hm | hm
    · exact h.pooled.pool buf' hm
    · exact h.pooled.back buf' (by rw [hpc, List.mem_singleton.1 hm]; rfl)

theorem ownerStep_conserved (h : s.Conserved) (hs : s.ownerStep = some s') : s'.Conserved := by
  unfold ownerStep at hs
  split at hs
  · cases hs
  · cases hs
  · simp only [Option.some.injEq] at hs
    exact hs ▸ ⟨h.stored, h.queue, h.pooled, h.round, h.filed⟩
  · simp only [Option.some.injEq] at hs
    obtain ⟨hst, hq, hp, hr, hf⟩ := h.notified
    exact hs ▸ ⟨hst, hq, hp, hr, hf⟩
  · simp only [Option.some.injEq] at hs
    exact hs ▸ ⟨h.stored, h.queue, h.pooled, h.round, h.filed⟩
  · cases hs

theorem step_conserved [NeZero n] {a : LogLabel n} (hb : s.owner = .constructed → s.back = .notStarted) (hlocks : s.Locks)
    (h : s.Conserved) (hs : s.step a = some s') : s'.Conserved := by
  cases a with
  | start =>
    simp only [step, Option.ite_none_right_eq_some, Option.some.injEq] at hs
    obtain ⟨ho, rfl⟩ := hs
    have hr := h.round
    rw [hb ho] at hr
    exact ⟨h.stored, h.queue, h.pooled.setBack (nothing_carried rfl), hr, h.filed⟩
  | stop =>
    simp only [step, Option.ite_none_right_eq_some, Option.some.injEq] at hs
    obtain ⟨-, rfl⟩ := hs
    exact ⟨h.stored, h.queue, h.pooled, h.round, h.filed⟩
  | owner => exact ownerStep_conserved h hs
  | append tid l =>
    simp only [step] at hs
    split at hs
    · simp only [Option.some.injEq] at hs
      exact hs ▸ h.moveFront _ (nothing_carried rfl)
    · cases hs
  | front tid => exact frontStep_conserved hlocks h hs
  | back now => exact backStep_conserved hlocks h hs
  | timeout =>
    simp only [step] at hs
    split at hs
    · rename_i hpc
      simp only [Option.some.injEq] at hs
      exact hs ▸ h.moveBack _ (by rw [hpc]; rfl) (nothing_carried rfl)
    · cases hs

theorem ownerStep_frame (hs : s.ownerStep = some s') :
    s'.front = s.front ∧ s'.taken = s.taken ∧ s'.appended = s.appended := by
  unfold ownerStep at hs
  split at hs
  all_goals cases hs
  all_goals exact ⟨rfl, rfl, rfl⟩

theorem step_taken [NeZero n] {a : LogLabel n} (hlocks : s.Locks) (h : Taken s.taken s.appended s.front)
    (hs : s.step a = some s') : Taken s'.taken s'.appended s'.front := by
  cases a with
  | start | stop =>
    simp only [step, Option.ite_none_right_eq_some, Option.some.injEq] at hs
    obtain ⟨-, rfl⟩ := hs
    exact h
  | owner =>
    obtain ⟨hf, ht, ha⟩ := ownerStep_frame hs
    rwa [hf, ht, ha]
  | append tid l =>
    simp only [step] at hs
    split at hs
    · rename_i hpc
      simp only [Option.some.injEq] at hs
      subst hs
      exact h.move hpc rfl
    · cases hs
  | front tid => exact frontStep_taken hlocks h hs
  | back now =>
    obtain ⟨-, -, hf, ht, ha⟩ := backStep_frame hs
    rwa [hf, ht, ha]
  | timeout =>
    simp only [step] at hs
    split at hs
    · simp only [Option.some.injEq] at hs
      exact hs ▸ h
    · cases hs

end AsyncState

namespace AsyncLogging

variable [NeZero n] {s : AsyncState n}

theorem conserved (h : (AsyncLogging n).Reachable s) : s.Conserved :=
  h.inv_of (I := AsyncState.Conserved) (fun _ hr => And.intro (unstarted hr) (locks hr))
    (fun _ h0 => h0 ▸ AsyncState.create_conserved)
    fun _ _ _ hr hi hs => AsyncState.step_conserved hr.1 hr.2 hi hs

theorem taken (h : (AsyncLogging n).Reachable s) : Taken s.taken s.appended s.front :=
  h.inv_of (I := fun s => Taken s.taken s.appended s.front) (fun _ hr => locks hr)
    (fun _ h0 => h0 ▸ ⟨fun _ _ => rfl, fun _ _ _ hu => by cases hu⟩)
    fun _ _ _ hl hi hs => AsyncState.step_taken hl hi hs

/-- A round in which buffers were dropped is still writing those it has kept. -/
theorem dropping_writing (h : (AsyncLogging n).Reachable s) (hd : s.dropping ≠ []) : ∃ k, s.back = .write k := by
  have hr := (conserved h).round
  cases hpc : s.back
  all_goals rw [hpc] at hr
  case write k => exact ⟨k, rfl⟩
  case dropTest => exact absurd hr.2 hd
  case recycle | lockSize | sizeTest | lockPush | push => exact absurd hr.2.1 hd
  all_goals exact absurd hr.2.2 hd

/-- Messages are conserved and ordered, in every reachable state. `taken b` are
the lines of bucket `b` in the order its mutex was taken, the last of them perhaps
not stored yet. -/
theorem messages_conserved (h : (AsyncLogging n).Reachable s) :
    (∀ b, s.taken b = s.appended b ∨
      ∃ tid l, (s.front tid).underway = some (b, l) ∧ s.taken b = s.appended b ++ [l]) ∧
    (∀ b, s.appended b =
      linesOf b s.retired ++ linesOf b s.backBuffers ++ linesOf b s.dropping ++ linesOf b s.frontBuffers ++
        linesOf b (s.node b).toList) ∧
    (∀ b buf, s.node b = some buf → buf.Whole) ∧ (∀ buf ∈ s.handed, buf.Whole) ∧
    s.handed = s.retired ++ s.unwritten ++ s.dropping ++ s.frontBuffers ∧
    (s.dropping ≠ [] → ∃ k, s.back = .write k) ∧
    s.output.filterMap FileAppend.buffer? = s.written.map (·.buffer.contents) ∧ s.written.Sublist s.retired ∧
    s.retired.length + s.dropping.length = s.written.length + (s.output.map FileAppend.dropped).sum := by
  have hc := conserved h
  refine ⟨fun b => ?_, fun b => ?_, hc.stored.node_whole, hc.stored.handed_whole, hc.queue, dropping_writing h,
    hc.filed.buffers, hc.filed.order, hc.filed.count⟩
  · by_cases hu : ∃ tid l, (s.front tid).underway = some (b, l)
    · obtain ⟨tid, l, hu⟩ := hu
      exact .inr ⟨tid, l, hu, (taken h).busy b tid l hu⟩
    · exact .inl ((taken h).free b fun tid l hl => hu ⟨tid, l, hl⟩)
  · rw [hc.stored.lines b, hc.queue, hc.round.lines b]
    simp only [linesOf_append]

/-- A line of `len` blanks. -/
def blanks (len : Nat) (h : len ≤ kLargeBufferSize) : Line := ⟨fun _ => 32, len, h⟩

/-- Thread 0 appends a line that does not fit into the bucket's buffer. -/
def appendFull (l : Line) : List (LogLabel n) := .append 0 l :: List.replicate 8 (.front 0)

/-- The back end takes over 26 buffers and drops all but two of them. -/
def dropRun : List (LogLabel 1) :=
  appendFull (blanks kLargeBufferSize (Nat.le_refl _)) ++
    (List.replicate 24 (appendFull (blanks (kLargeBufferSize - 1) (by decide)))).flatten ++
    .start :: List.replicate 16 (.back "now")

/-- The first line is in `backBuffers_`, the 24 others are dropped. -/
theorem dropRun_state : ∃ s, (AsyncLogging 1).run .create dropRun = some s ∧
    (s.appended 0).map (·.len) = kLargeBufferSize :: List.replicate 24 (kLargeBufferSize - 1) ∧
    (linesOf 0 s.retired).map (·.len) = [] ∧
    (linesOf 0 s.dropping).map (·.len) = List.replicate 24 (kLargeBufferSize - 1) := by
  have h : ((AsyncLogging 1).run .create dropRun).map (fun s =>
      ((s.appended 0).map (·.len), (linesOf 0 s.retired).map (·.len), (linesOf 0 s.dropping).map (·.len))) =
        some (kLargeBufferSize :: List.replicate 24 (kLargeBufferSize - 1), [],
          List.replicate 24 (kLargeBufferSize - 1)) := by decide +kernel
  obtain ⟨s, hs, hv⟩ := Option.map_eq_some_iff.1 h
  simp only [Prod.mk.injEq] at hv
  exact ⟨s, hs, hv⟩

theorem messages_conserved_drop : ∃ s, (AsyncLogging 1).run .create dropRun = some s ∧
    s.appended 0 =
      linesOf 0 s.retired ++ linesOf 0 s.backBuffers ++ linesOf 0 s.dropping ++ linesOf 0 s.frontBuffers ++
        linesOf 0 (s.node 0).toList := by
  obtain ⟨s, hs, -⟩ := dropRun_state
  have h0 : (AsyncLogging 1).init .create := rfl
  exact ⟨s, hs, (messages_conserved ((Lts.System.Reachable.init h0).run hs)).2.1 0⟩

/-- The buffers dropped in a round are younger than those it has still to write. -/
theorem dropped_before_kept : ¬ ∀ s, (AsyncLogging 1).Reachable s →
    s.appended 0 =
      linesOf 0 (s.retired ++ s.dropping) ++ linesOf 0 s.backBuffers ++ linesOf 0 s.frontBuffers ++
        linesOf 0 (s.node 0).toList := by
  intro hall
  obtain ⟨s, hs, happ, hret, hdrop⟩ := dropRun_state
  have h0 : (AsyncLogging 1).init .create := rfl
  have heq := congrArg (List.map (·.len)) (hall s ((Lts.System.Reachable.init h0).run hs))
  simp only [linesOf_append, List.map_append, hret, hdrop, happ, List.nil_append, List.append_assoc] at heq
  have hhead := congrArg List.head? heq
  rw [List.replicate_succ, List.cons_append, List.head?_cons, List.head?_cons, Option.some.injEq] at hhead
  exact absurd hhead (by decide)

end AsyncLogging

end Ycnt
