import LlamaStack.VendoredSnapshot

/-!
# The integrity of a vendored snapshot

What a manifest says about a tree, and which trees a written manifest accepts.
-/
namespace VendoredIntegrity

open GoBytes PythonStr VendoredSnapshot

variable {H : Sha256} {ROOT : List Str} {root : Str} {T T' : FileTree}

/-! ## Trees -/

theorem get_eq_some_iff {p : Path} {content : Bytes} : T.get p = some content ↔ (p, content) ∈ T.files := by
  have hlookup : ∀ files : List (Path × Bytes), (files.map Prod.fst).Nodup →
      (files.lookup p = some content ↔ (p, content) ∈ files) := by
    intro files hnodup
    induction files with
    | nil => simp
    | cons e files ih =>
      rw [List.map_cons, List.nodup_cons] at hnodup
      rw [List.lookup_cons]
      by_cases he : p = e.1
      · have hnot : (p, content) ∉ files := fun hm => hnodup.1 (List.mem_map.mpr ⟨_, hm, he⟩)
        simp [he, Prod.ext_iff, eq_comm, he ▸ hnot]
      · rw [beq_eq_false_iff_ne.mpr he]
        simp only [ih hnodup.2, List.mem_cons, or_iff_right fun h : (p, content) = e => he (congrArg Prod.fst h)]
  exact hlookup T.files T.nodup

theorem get_write {name : Str} {hname : IsName name} {h : T.isDir [name] = false} {content : Bytes} :
    (T.write name hname h content).get [name] = some content := get_eq_some_iff.mpr List.mem_cons_self

theorem get_write_ne {name : Str} (hname : IsName name) (h : T.isDir [name] = false) {content : Bytes} {p : Path}
    (hp : p ≠ [name]) : (T.write name hname h content).get p = T.get p := by
  apply Option.ext
  intro c
  rw [get_eq_some_iff, get_eq_some_iff, FileTree.write, List.mem_cons, List.mem_filter]
  simp [hp]

theorem isDir_of_get {p : Path} {content : Bytes} (h : T.get p = some content) : T.isDir p = false := by
  rw [FileTree.isDir, List.any_eq_false]
  intro e he hdir
  rw [Bool.and_eq_true, List.isPrefixOf_iff_prefix, bne_iff_ne] at hdir
  exact hdir.2 (T.apart _ (get_eq_some_iff.mp h) e he hdir.1)

theorem named_of_get {p : Path} {content : Bytes} (h : T.get p = some content) : p ≠ [] ∧ ∀ c ∈ p, IsName c :=
  T.named _ (get_eq_some_iff.mp h)

theorem mem_snapshotFiles {p : Path} :
    p ∈ snapshotFiles ROOT root T ↔ (∃ content, T.get p = some content) ∧ isSnapshotFile ROOT root p = true := by
  rw [snapshotFiles, List.mem_mergeSort, List.mem_filter, List.mem_map]
  constructor
  · rintro ⟨⟨e, he, rfl⟩, hp⟩
    exact ⟨⟨e.2, get_eq_some_iff.mpr he⟩, hp⟩
  · rintro ⟨⟨content, hc⟩, hp⟩
    exact ⟨⟨_, get_eq_some_iff.mp hc, rfl⟩, hp⟩

/-! ## Digests and paths -/

theorem feed_eq (fed rest : Bytes) : feed fed rest = fed ++ rest := by
  fun_induction feed fed rest with
  | case1 fed rest h =>
    have hrest : rest = [] := by
      cases rest with
      | nil => rfl
      | cons b rest => cases h
    rw [hrest, List.append_nil]
  | case2 fed rest h ih => rw [ih, List.append_assoc, List.take_append_drop]

@[simp] theorem sha256_eq (content : Bytes) : sha256 H content = H.hexdigest content := by
  rw [sha256, feed_eq, List.nil_append]

theorem isName_of_mem (hroot : root ∈ SNAPSHOTS) : IsName root := by
  have h : ∀ name ∈ SNAPSHOTS, IsName name := by decide
  exact h root hroot

theorem splitOn_rel (hroot : root ∈ SNAPSHOTS) {p : Path} (hp : ∀ c ∈ p, IsName c) :
    (rel root p).splitOn slash = root :: p := by
  apply List.splitOn_intercalate slash _ (by simp)
  intro c hc
  cases List.mem_cons.mp hc with
  | inl h => exact h ▸ (isName_of_mem hroot).2.2.2.1
  | inr h => exact (hp c h).2.2.2.1

theorem rel_injective (hroot : root ∈ SNAPSHOTS) {p q : Path} (hp : ∀ c ∈ p, IsName c) (hq : ∀ c ∈ q, IsName c)
    (h : rel root p = rel root q) : p = q := by
  have hsplit := congrArg (List.splitOn slash) h
  rw [splitOn_rel hroot hp, splitOn_rel hroot hq] at hsplit
  exact (List.cons.inj hsplit).2

theorem openAt_rel (hroot : root ∈ SNAPSHOTS) {p : Path} (hp : ∀ c ∈ p, IsName c) :
    openAt root T (rel root p) = T.get p := by
  have hfilter : ((root :: p).filter fun c => c ≠ [] ∧ c ≠ lit ".") = root :: p := by
    rw [List.filter_eq_self]
    intro c hc
    have hname : IsName c := by
      cases List.mem_cons.mp hc with
      | inl h => exact h ▸ isName_of_mem hroot
      | inr h => exact hp c h
    simp [hname.1, hname.2.1]
  rw [openAt, splitOn_rel hroot hp, hfilter]
  exact if_pos rfl

@[simp] theorem rel_nil : rel root [] = root := by simp [rel]

theorem rel_cons (d : Str) (p : Path) : rel root (d :: p) = root ++ slash :: rel d p := by simp [rel]

theorem rel_concat (p : Path) (name : Str) : rel root (p ++ [name]) = rel root p ++ slash :: name := by
  induction p generalizing root with
  | nil => simp [rel_cons]
  | cons d p ih => rw [List.cons_append, rel_cons, rel_cons, ih, List.append_assoc, List.cons_append]

theorem mem_rel {p : Path} {c : CodePoint} (h : c ∈ rel root p) : c ∈ root ∨ c = slash ∨ ∃ name ∈ p, c ∈ name := by
  induction p generalizing root with
  | nil =>
    rw [rel_nil] at h
    exact .inl h
  | cons d p ih =>
    rw [rel_cons] at h
    cases List.mem_append.mp h with
    | inl h => exact .inl h
    | inr h =>
      cases List.mem_cons.mp h with
      | inl h => exact .inr (.inl h)
      | inr h =>
        refine .inr ?_
        rcases ih h with h | h | ⟨name, hn, h⟩
        · exact .inr ⟨d, List.mem_cons_self, h⟩
        · exact .inl h
        · exact .inr ⟨name, List.mem_cons_of_mem _ hn, h⟩

/-! ## Lines of a manifest -/

/-- Every character has an encoding and none ends a line, and the last is no space. -/
def Plain (k : Str) : Prop :=
  (∀ c ∈ k, isSurrogate c = false ∧ isLineBreak c = false) ∧ ∀ c ∈ k.getLast?, isSpace c = false

theorem hexDigits_plain : ∀ c ∈ hexDigits, isSurrogate c = false ∧ isSpace c = false ∧ c ≠ ofChar '#' := by
  have h : (hexDigits.all fun c => !isSurrogate c && !isSpace c && c != ofChar '#') = true := by decide +kernel
  intro c hc
  simpa [and_assoc] using List.all_eq_true.mp h c hc

theorem gap_plain : ∀ c ∈ gap, isSurrogate c = false ∧ isLineBreak c = false ∧ isSpace c = true := by
  have h : (gap.all fun c => !isSurrogate c && !isLineBreak c && isSpace c) = true := by decide +kernel
  intro c hc
  simpa [and_assoc] using List.all_eq_true.mp h c hc

theorem isLineBreak_of_not_isSpace {c : CodePoint} (h : isSpace c = false) : isLineBreak c = false := by
  apply eq_false_of_ne_true
  intro hb
  rw [isSpace_of_isLineBreak hb] at h
  cases h

theorem readLine_entryLine {n : Nat} {out : Dict} {k : Str} (b : Bytes) (hk : Plain k) (hne : k ≠ [])
    (hhead : ∀ c ∈ k.head?, isSpace c = false) :
    readLine root n out (entryLine (H.hexdigest b) k) = .ok (out.insert k (H.hexdigest b)) := by
  obtain ⟨hdigest, hhex⟩ := H.hex b
  have hspace : ∀ c ∈ H.hexdigest b, isSpace c = false := fun c hc => (hexDigits_plain c (hhex c hc)).2.1
  obtain ⟨c, cs, hcons⟩ := List.exists_cons_of_ne_nil hdigest
  have hc : c ∈ H.hexdigest b := hcons ▸ List.mem_cons_self
  have hstrip : strip (entryLine (H.hexdigest b) k) ≠ [] := by
    apply strip_ne_nil _ (hspace c hc)
    exact List.mem_append_left _ (List.mem_append_left _ hc)
  have hsharp : ¬ lit "#" <+: entryLine (H.hexdigest b) k := by
    rw [entryLine, hcons]
    intro hp
    exact (hexDigits_plain c (hhex c hc)).2.2 (List.cons_prefix_cons.mp hp).1.symm
  have hgap : gap ≠ [] ∧ ∀ c ∈ gap, isSpace c = true := ⟨by decide, fun c hc => (gap_plain c hc).2.2⟩
  have hsplit : splitFirst (entryLine (H.hexdigest b) k) = [H.hexdigest b, k] :=
    splitFirst_of_word hdigest hspace hgap.1 hgap.2 hne hhead
  rw [readLine, if_neg (not_or.mpr ⟨hstrip, hsharp⟩), hsplit]
  simp only [strip_of_ends hhead hk.2]

abbrev Entry := Str × Str

def record (out : Dict) (e : Entry) : Dict := out.insert e.1 e.2

/-- The entries that are written for the files of a tree. -/
def written (H : Sha256) (ROOT : List Str) (root : Str) (T : FileTree) : List Entry :=
  (snapshotFiles ROOT root T).map fun p => (rel root p, sha256 H ((T.get p).getD []))

/-- An entry that a line can hold. -/
def IsEntry (H : Sha256) (e : Entry) : Prop :=
  (∃ b, e.2 = H.hexdigest b) ∧ Plain e.1 ∧ e.1 ≠ [] ∧ ∀ c ∈ e.1.head?, isSpace c = false

theorem readManifestLines_entries {n : Nat} {out : Dict} {es : List Entry} (h : ∀ e ∈ es, IsEntry H e) :
    readManifestLines root n out (es.map fun e => entryLine e.2 e.1) = .ok (es.foldl record out) := by
  induction es generalizing n out with
  | nil => rfl
  | cons e es ih =>
    obtain ⟨⟨b, hb⟩, hplain, hne, hhead⟩ := h e List.mem_cons_self
    rw [List.map_cons, readManifestLines, hb, readLine_entryLine b hplain hne hhead]
    simp only
    rw [ih fun e he => h e (List.mem_cons_of_mem _ he), List.foldl_cons, record, hb]

theorem lookup_record {es : List Entry} (hnodup : (es.map Prod.fst).Nodup) {out : Dict} {k d : Str} :
    (es.foldl record out).lookup k = some d ↔ (k, d) ∈ es ∨ k ∉ es.map Prod.fst ∧ out.lookup k = some d := by
  induction es generalizing out with
  | nil => simp
  | cons e es ih =>
    rw [List.map_cons, List.nodup_cons] at hnodup
    rw [List.foldl_cons, ih hnodup.2, record]
    by_cases he : k = e.1
    · have hnot : (k, d) ∉ es := fun hm => hnodup.1 (he ▸ List.mem_map.mpr ⟨_, hm, rfl⟩)
      subst he
      simp [hnot, hnodup.1, Prod.ext_iff, eq_comm]
    · have hcons : (k, d) ≠ e := fun h => he (congrArg Prod.fst h)
      rw [AList.lookup_insert_ne he]
      simp [he, hcons]

theorem isLineBreak_entryLine {e : Entry} (h : IsEntry H e) : ∀ c ∈ entryLine e.2 e.1, isLineBreak c = false := by
  obtain ⟨⟨b, hb⟩, hplain, -, -⟩ := h
  intro c hc
  rcases List.mem_append.mp hc with hc | hc
  · rcases List.mem_append.mp hc with hc | hc
    · rw [hb] at hc
      exact isLineBreak_of_not_isSpace (hexDigits_plain c ((H.hex b).2 c hc)).2.1
    · exact (gap_plain c hc).2.1
  · exact (hplain.1 c hc).2

theorem isSurrogate_entryLine {e : Entry} (h : IsEntry H e) : ∀ c ∈ entryLine e.2 e.1, isSurrogate c = false := by
  obtain ⟨⟨b, hb⟩, hplain, -, -⟩ := h
  intro c hc
  rcases List.mem_append.mp hc with hc | hc
  · rcases List.mem_append.mp hc with hc | hc
    · rw [hb] at hc
      exact (hexDigits_plain c ((H.hex b).2 c hc)).1
    · exact (gap_plain c hc).1
  · exact (hplain.1 c hc).1

/-- A manifest of entries that lines can hold is read back. -/
theorem readManifest_entries {es : List Entry} (h : ∀ e ∈ es, IsEntry H e) :
    ∃ b, encodeUtf8 (es.flatMap fun e => entryLine e.2 e.1 ++ [newline]) = some b ∧
      readManifest root b = .ok (es.foldl record ∅) := by
  have hsome : (encodeUtf8 (es.flatMap fun e => entryLine e.2 e.1 ++ [newline])).isSome := by
    rw [encodeUtf8_isSome_iff]
    intro c hc
    obtain ⟨e, he, hc⟩ := List.mem_flatMap.mp hc
    cases List.mem_append.mp hc with
    | inl hc => exact isSurrogate_entryLine (h e he) c hc
    | inr hc => exact List.mem_singleton.mp hc ▸ (by decide +kernel)
  obtain ⟨b, hb⟩ := Option.isSome_iff_exists.mp hsome
  refine ⟨b, hb, ?_⟩
  have hlines : ∀ l ∈ es.map fun e => entryLine e.2 e.1, ∀ c ∈ l, isLineBreak c = false := by
    intro l hl
    obtain ⟨e, he, rfl⟩ := List.mem_map.mp hl
    exact isLineBreak_entryLine (h e he)
  have htext : (es.flatMap fun e => entryLine e.2 e.1 ++ [newline]) =
      (es.map fun e => entryLine e.2 e.1).flatMap fun l => l ++ [newline] := by
    rw [List.flatMap_map]
  rw [readManifest, decodeUtf8_encodeUtf8 hb]
  simp only
  rw [htext, universalNewlines_lines hlines, splitLines_lines hlines, readManifestLines_entries h]

/-! ## What a manifest says -/

/-- The manifest has the digests of the files that the script looks at, and nothing else. -/
def Describes (H : Sha256) (ROOT : List Str) (root : Str) (T : FileTree) (d : Dict) : Prop :=
  ∀ k digest, d.lookup k = some digest ↔ ∃ p content, isSnapshotFile ROOT root p = true ∧
    T.get p = some content ∧ k = rel root p ∧ digest = H.hexdigest content

/-- The files that the script looks at are the same, and so are their contents. -/
def SameSnapshot (ROOT : List Str) (root : Str) (T T' : FileTree) : Prop :=
  ∀ p, isSnapshotFile ROOT root p = true → T.get p = T'.get p

theorem mem_written {k digest : Str} :
    (k, digest) ∈ written H ROOT root T ↔ ∃ p content, isSnapshotFile ROOT root p = true ∧
      T.get p = some content ∧ k = rel root p ∧ digest = H.hexdigest content := by
  rw [written, List.mem_map]
  constructor
  · rintro ⟨p, hp, he⟩
    obtain ⟨⟨content, hc⟩, hs⟩ := mem_snapshotFiles.mp hp
    rw [hc, Option.getD_some, sha256_eq] at he
    obtain ⟨rfl, rfl⟩ := Prod.ext_iff.mp he
    exact ⟨p, content, hs, hc, rfl, rfl⟩
  · rintro ⟨p, content, hs, hc, rfl, rfl⟩
    refine ⟨p, mem_snapshotFiles.mpr ⟨⟨content, hc⟩, hs⟩, ?_⟩
    rw [hc, Option.getD_some, sha256_eq]

theorem nodup_snapshotFiles : (snapshotFiles ROOT root T).Nodup :=
  (List.mergeSort_perm _ _).nodup_iff.mpr (T.nodup.sublist List.filter_sublist)

theorem nodup_written (hroot : root ∈ SNAPSHOTS) : ((written H ROOT root T).map Prod.fst).Nodup := by
  rw [written, List.map_map]
  apply nodup_snapshotFiles.map_on
  intro p hp q hq h
  obtain ⟨⟨_, hp⟩, -⟩ := mem_snapshotFiles.mp hp
  obtain ⟨⟨_, hq⟩, -⟩ := mem_snapshotFiles.mp hq
  exact rel_injective hroot (named_of_get hp).2 (named_of_get hq).2 h

theorem describes_written (hroot : root ∈ SNAPSHOTS) :
    Describes H ROOT root T ((written H ROOT root T).foldl record ∅) := by
  intro k digest
  rw [lookup_record (nodup_written hroot), ← mem_written]
  simp

/-- A manifest that is right about one tree is right about exactly the trees with the same files. -/
theorem describes_iff (hroot : root ∈ SNAPSHOTS) {d : Dict} (h : Describes H ROOT root T d) :
    Describes H ROOT root T' d ↔ SameSnapshot ROOT root T T' := by
  constructor
  · intro h' p hp
    apply Option.ext
    intro content
    constructor
    · intro hc
      obtain ⟨q, content', -, hc', hrel, hdigest⟩ := (h' _ _).mp ((h _ _).mpr ⟨p, content, hp, hc, rfl, rfl⟩)
      obtain rfl := H.injective hdigest
      rw [rel_injective hroot (named_of_get hc).2 (named_of_get hc').2 hrel]
      exact hc'
    · intro hc
      obtain ⟨q, content', -, hc', hrel, hdigest⟩ := (h _ _).mp ((h' _ _).mpr ⟨p, content, hp, hc, rfl, rfl⟩)
      obtain rfl := H.injective hdigest
      rw [rel_injective hroot (named_of_get hc).2 (named_of_get hc').2 hrel]
      exact hc'
  · intro hsame k digest
    rw [h k digest]
    constructor
    · rintro ⟨p, content, hp, hc, hk⟩
      exact ⟨p, content, hp, hsame p hp ▸ hc, hk⟩
    · rintro ⟨p, content, hp, hc, hk⟩
      exact ⟨p, content, hp, (hsame p hp).symm ▸ hc, hk⟩

/-! ## The check -/

theorem sorted_eq_nil {names : List Str} : sorted names = [] ↔ names = [] := by
  rw [← List.length_eq_zero_iff, sorted, List.length_mergeSort, List.length_eq_zero_iff]

theorem mem_items {d : Dict} {k digest : Str} : (k, digest) ∈ items d ↔ d.lookup k = some digest := by
  rw [items, List.mem_mergeSort, List.mem_map, ← Option.mem_def, AList.mem_lookup_iff]
  constructor
  · rintro ⟨e, he, h⟩
    obtain ⟨rfl, rfl⟩ := Prod.ext_iff.mp h
    exact he
  · exact fun h => ⟨_, h, rfl⟩

theorem mismatches_eq_nil {es : List Entry} :
    mismatches H root T es = .ok [] ↔
      ∀ e ∈ es, ∃ content, openAt root T e.1 = some content ∧ H.hexdigest content = e.2 := by
  induction es with
  | nil => simp [mismatches]
  | cons e es ih =>
    rw [List.forall_mem_cons, ← ih, mismatches]
    cases openAt root T e.1 with
    | none => simp
    | some content =>
      cases mismatches H root T es with
      | error f => simp
      | ok ms =>
        by_cases he : H.hexdigest content = e.2
        · simp [he]
        · simp [he]

theorem describes_iff_checked (hroot : root ∈ SNAPSHOTS) {d : Dict} :
    Describes H ROOT root T d ↔
      (∀ k ∈ d.keys, k ∈ (snapshotFiles ROOT root T).map (rel root)) ∧
        (∀ k ∈ (snapshotFiles ROOT root T).map (rel root), k ∈ d.keys) ∧ mismatches H root T (items d) = .ok [] := by
  have hkeys : ∀ k, k ∈ d.keys ↔ ∃ digest, d.lookup k = some digest := by
    intro k
    rw [← AList.mem_keys, ← AList.lookup_isSome, Option.isSome_iff_exists]
  rw [mismatches_eq_nil]
  constructor
  · intro h
    refine ⟨?_, ?_, ?_⟩
    · intro k hk
      obtain ⟨digest, hd⟩ := (hkeys k).mp hk
      obtain ⟨p, content, hp, hc, rfl, -⟩ := (h k digest).mp hd
      exact List.mem_map.mpr ⟨p, mem_snapshotFiles.mpr ⟨⟨content, hc⟩, hp⟩, rfl⟩
    · intro k hk
      obtain ⟨p, hm, rfl⟩ := List.mem_map.mp hk
      obtain ⟨⟨content, hc⟩, hp⟩ := mem_snapshotFiles.mp hm
      exact (hkeys _).mpr ⟨_, (h _ _).mpr ⟨p, content, hp, hc, rfl, rfl⟩⟩
    · intro e he
      obtain ⟨p, content, hp, hc, hk, hdigest⟩ := (h e.1 e.2).mp (mem_items.mp he)
      exact ⟨content, by rw [hk, openAt_rel hroot (named_of_get hc).2, hc], hdigest.symm⟩
  · rintro ⟨hknown, hlisted, hdigests⟩ k digest
    constructor
    · intro hd
      obtain ⟨p, hm, rfl⟩ := List.mem_map.mp (hknown k ((hkeys k).mpr ⟨digest, hd⟩))
      obtain ⟨⟨content, hc⟩, hp⟩ := mem_snapshotFiles.mp hm
      obtain ⟨content', hopen, hdigest⟩ := hdigests _ (mem_items.mpr hd)
      rw [openAt_rel hroot (named_of_get hc).2, hc] at hopen
      obtain rfl := Option.some.inj hopen
      exact ⟨p, content, hp, hc, rfl, hdigest.symm⟩
    · rintro ⟨p, content, hp, hc, rfl, rfl⟩
      have hm : rel root p ∈ (snapshotFiles ROOT root T).map (rel root) :=
        List.mem_map.mpr ⟨p, mem_snapshotFiles.mpr ⟨⟨content, hc⟩, hp⟩, rfl⟩
      obtain ⟨digest, hd⟩ := (hkeys _).mp (hlisted _ hm)
      obtain ⟨content', hopen, hdigest⟩ := hdigests _ (mem_items.mpr hd)
      rw [openAt_rel hroot (named_of_get hc).2, hc] at hopen
      obtain rfl := Option.some.inj hopen
      exact hdigest ▸ hd

/-- With a manifest that can be read, the check succeeds exactly when it is right about the tree. -/
theorem checkManifest_of_read (hroot : root ∈ SNAPSHOTS) {b : Bytes} {d : Dict} (hb : T.get [MANIFEST] = some b)
    (hd : readManifest root b = .ok d) : checkManifest H ROOT root T = .ok () ↔ Describes H ROOT root T d := by
  have hfilter : ∀ l l' : List Str, sorted (l.filter fun k => k ∉ l') = [] ↔ ∀ k ∈ l, k ∈ l' := by
    intro l l'
    simp [sorted_eq_nil, List.filter_eq_nil_iff]
  rw [describes_iff_checked hroot, checkManifest, hb]
  simp only [hd]
  rw [← hfilter, ← hfilter]
  generalize sorted (d.keys.filter _) = missing
  generalize sorted (((snapshotFiles ROOT root T).map (rel root)).filter _) = extra
  by_cases hmissing : missing = []
  · by_cases hextra : extra = []
    · cases hm : mismatches H root T (items d) with
      | error f => simp [hmissing, hextra]
      | ok ms => cases ms <;> simp [hmissing, hextra]
    · simp [hmissing, hextra]
  · simp [hmissing]

/-- Without one, it fails. -/
theorem readManifest_of_ok (h : checkManifest H ROOT root T = .ok ()) :
    ∃ b d, T.get [MANIFEST] = some b ∧ readManifest root b = .ok d := by
  unfold checkManifest at h
  cases hb : T.get [MANIFEST] with
  | none => rw [hb] at h; cases h
  | some b =>
    cases hd : readManifest root b with
    | error f => simp only [hb, hd] at h; cases h
    | ok d => exact ⟨b, d, rfl, hd⟩

theorem readLine_plain {n : Nat} {out out' : Dict} {line : Str}
    (hline : ∀ c ∈ line, isSurrogate c = false ∧ isLineBreak c = false) (hout : ∀ k ∈ out, Plain k)
    (h : readLine root n out line = .ok out') : ∀ k ∈ out', Plain k := by
  unfold readLine at h
  split at h
  · exact Except.ok.inj h ▸ hout
  · split at h
    · rename_i digest filePath hsplit
      have hwithin : strip filePath <:+: line :=
        (strip_within filePath).trans (splitFirst_within (hsplit ▸ by simp))
      intro k hk
      rw [← Except.ok.inj h, AList.mem_insert] at hk
      cases hk with
      | inl hk => exact hk ▸ ⟨fun c hc => hline c (hwithin.mem hc), strip_last filePath⟩
      | inr hk => exact hout k hk
    · cases h

theorem readManifestLines_plain {n : Nat} {out d : Dict} {lines : List Str}
    (hlines : ∀ l ∈ lines, ∀ c ∈ l, isSurrogate c = false ∧ isLineBreak c = false) (hout : ∀ k ∈ out, Plain k)
    (h : readManifestLines root n out lines = .ok d) : ∀ k ∈ d, Plain k := by
  induction lines generalizing n out with
  | nil => exact Except.ok.inj h ▸ hout
  | cons line lines ih =>
    rw [readManifestLines] at h
    split at h
    · cases h
    · rename_i out' hout'
      have hplain := readLine_plain (hlines line List.mem_cons_self) hout hout'
      exact ih (fun l hl => hlines l (List.mem_cons_of_mem _ hl)) hplain h

/-- Whatever a manifest says, the files it lists can be held by a line. -/
theorem readManifest_plain {b : Bytes} {d : Dict} (h : readManifest root b = .ok d) : ∀ k ∈ d, Plain k := by
  unfold readManifest at h
  split at h
  · cases h
  · rename_i text htext
    have hnewline : isSurrogate newline = false := by decide +kernel
    refine readManifestLines_plain ?_ (by simp) h
    intro l hl c hc
    obtain ⟨hmem, hbreak⟩ := mem_of_mem_splitLines hl c hc
    refine ⟨?_, hbreak⟩
    cases hmem with
    | inl hmem =>
      cases mem_universalNewlines hmem with
      | inl hmem => exact isSurrogate_of_decodeUtf8 htext c hmem
      | inr hmem => exact hmem ▸ hnewline
    | inr hmem => exact hmem ▸ hnewline

/-- A directory that is accepted has only files that can be held by a line. -/
theorem plain_of_accepted (hroot : root ∈ SNAPSHOTS) (h : checkManifest H ROOT root T = .ok ()) {p : Path}
    {content : Bytes} (hc : T.get p = some content) (hp : isSnapshotFile ROOT root p = true) : Plain (rel root p) := by
  obtain ⟨b, d, hb, hd⟩ := readManifest_of_ok h
  have hdescribes := (checkManifest_of_read hroot hb hd).mp h
  have hlookup := (hdescribes _ _).mpr ⟨p, content, hp, hc, rfl, rfl⟩
  apply readManifest_plain hd
  rw [← AList.lookup_isSome, hlookup]
  rfl

/-! ## Written manifests -/

/-- A file that counts: no manifest, and not in an ignored directory. -/
def Counts (p : Path) : Prop := p.getLast? ≠ some MANIFEST ∧ ∀ part ∈ p, part ∉ ignoredParts

/-- A path that a line of a manifest can hold. -/
def PlainPath (p : Path) : Prop :=
  (∀ name ∈ p, ∀ c ∈ name, isSurrogate c = false ∧ isLineBreak c = false) ∧
    ∀ name ∈ p.getLast?, ∀ c ∈ name.getLast?, isSpace c = false

theorem snapshots_plain (hroot : root ∈ SNAPSHOTS) :
    (∀ c ∈ root, isSurrogate c = false ∧ isSpace c = false) ∧ root ≠ [] ∧ root ∉ ignoredParts := by
  have h : (SNAPSHOTS.all fun name => (name.all fun c => !isSurrogate c && !isSpace c) && name != [] &&
      !ignoredParts.contains name) = true := by decide +kernel
  have h := List.all_eq_true.mp h root hroot
  simpa [and_assoc] using h

theorem isSnapshotFile_iff (hROOT : ∀ part ∈ ROOT, part ∉ ignoredParts) (hroot : root ∈ SNAPSHOTS) {p : Path} :
    isSnapshotFile ROOT root p = true ↔ Counts p := by
  have hparts : ((ROOT ++ root :: p).any fun part => ignoredParts.contains part) = false ↔
      ∀ part ∈ p, part ∉ ignoredParts := by
    rw [List.any_eq_false]
    constructor
    · intro h part hp
      simpa using h part (List.mem_append_right _ (List.mem_cons_of_mem _ hp))
    · intro h part hp
      have hnot : part ∉ ignoredParts := by
        cases List.mem_append.mp hp with
        | inl hp => exact hROOT part hp
        | inr hp =>
          cases List.mem_cons.mp hp with
          | inl hp => exact hp ▸ (snapshots_plain hroot).2.2
          | inr hp => exact h part hp
      simpa using hnot
  rw [isSnapshotFile, Counts, ← hparts]
  simp

theorem plain_rel (hroot : root ∈ SNAPSHOTS) {p : Path} (hne : p ≠ []) (hp : ∀ c ∈ p, IsName c) (h : PlainPath p) :
    Plain (rel root p) ∧ rel root p ≠ [] ∧ ∀ c ∈ (rel root p).head?, isSpace c = false := by
  obtain ⟨hchars, hrootne, -⟩ := snapshots_plain hroot
  have hslash : isSurrogate slash = false ∧ isLineBreak slash = false := by decide +kernel
  refine ⟨⟨?_, ?_⟩, ?_, ?_⟩
  · intro c hc
    rcases mem_rel hc with hc | hc | ⟨name, hname, hc⟩
    · exact ⟨(hchars c hc).1, isLineBreak_of_not_isSpace (hchars c hc).2⟩
    · exact hc ▸ hslash
    · exact h.1 name hname c hc
  · obtain ⟨init, name, rfl⟩ : ∃ init name, p = init ++ [name] := ⟨_, _, (List.dropLast_concat_getLast hne).symm⟩
    have hname : name ≠ [] := (hp name (by simp)).1
    obtain ⟨xs, x, rfl⟩ : ∃ xs x, name = xs ++ [x] := ⟨_, _, (List.dropLast_concat_getLast hname).symm⟩
    intro c hc
    apply h.2 _ List.getLast?_concat c
    rw [rel_concat, ← List.cons_append, ← List.append_assoc, List.getLast?_concat] at hc
    rw [List.getLast?_concat]
    exact hc
  · obtain ⟨d, ds, rfl⟩ := List.exists_cons_of_ne_nil hne
    simp [rel_cons]
  · obtain ⟨d, ds, rfl⟩ := List.exists_cons_of_ne_nil hne
    obtain ⟨x, xs, rfl⟩ := List.exists_cons_of_ne_nil hrootne
    intro c hc
    rw [rel_cons, List.cons_append, List.head?_cons, Option.mem_some] at hc
    exact hc ▸ (hchars x List.mem_cons_self).2

theorem isEntry_written (hroot : root ∈ SNAPSHOTS)
    (hplain : ∀ p content, T.get p = some content → isSnapshotFile ROOT root p = true → PlainPath p) :
    ∀ e ∈ written H ROOT root T, IsEntry H e := by
  intro e he
  obtain ⟨p, content, hp, hc, hk, hdigest⟩ := mem_written.mp (show (e.1, e.2) ∈ written H ROOT root T from he)
  obtain ⟨hne, hnamed⟩ := named_of_get hc
  have hrel := plain_rel hroot hne hnamed (hplain p content hc hp)
  exact ⟨⟨content, hdigest⟩, hk ▸ hrel.1, hk ▸ hrel.2.1, hk ▸ hrel.2.2⟩

theorem manifestText_eq : manifestText H ROOT root T =
    (written H ROOT root T).flatMap fun e => entryLine e.2 e.1 ++ [newline] := by
  rw [manifestText, written, List.flatMap_map]

/-- A manifest is written that is right about the tree. -/
theorem writeManifest_describes (hroot : root ∈ SNAPSHOTS) (hdir : T.isDir [MANIFEST] = false)
    (hplain : ∀ p content, T.get p = some content → isSnapshotFile ROOT root p = true → PlainPath p) :
    (writeManifest H ROOT root T).1 = .ok () ∧ ∃ b d, (writeManifest H ROOT root T).2.get [MANIFEST] = some b ∧
      readManifest root b = .ok d ∧ Describes H ROOT root T d := by
  obtain ⟨b, hb, hd⟩ := readManifest_entries (isEntry_written (H := H) hroot hplain)
  rw [← manifestText_eq] at hb
  rw [writeManifest, dif_pos hdir]
  simp only [hb]
  exact ⟨trivial, b, _, get_write, hd, describes_written hroot⟩

theorem checkManifest_iff_same (hroot : root ∈ SNAPSHOTS) (hdir : T.isDir [MANIFEST] = false)
    (hplain : ∀ p content, T.get p = some content → isSnapshotFile ROOT root p = true → PlainPath p)
    (hmanifest : T'.get [MANIFEST] = (writeManifest H ROOT root T).2.get [MANIFEST]) :
    checkManifest H ROOT root T' = .ok () ↔ SameSnapshot ROOT root T T' := by
  obtain ⟨-, b, d, hb, hd, hdescribes⟩ := writeManifest_describes (H := H) hroot hdir hplain
  rw [checkManifest_of_read hroot (hmanifest.trans hb) hd, describes_iff hroot hdescribes]

theorem plainPath_of_rel {p : Path} (h : Plain (rel root p)) : PlainPath p := by
  constructor
  · intro name hname c hc
    apply h.1
    obtain ⟨xs, ys, rfl⟩ := List.append_of_mem hname
    have hrel : ∀ (root : Str) (xs : Path), c ∈ rel root (xs ++ name :: ys) := by
      intro root xs
      induction xs generalizing root with
      | nil =>
        rw [List.nil_append, rel_cons]
        cases ys with
        | nil => simp [hc]
        | cons y ys => simp [rel_cons, hc]
      | cons x xs ih =>
        rw [List.cons_append, rel_cons]
        exact List.mem_append_right _ (List.mem_cons_of_mem _ (ih x))
    exact hrel root xs
  · intro name hname c hc
    apply h.2 c
    obtain ⟨init, rfl⟩ := List.getLast?_eq_some_iff.mp hname
    obtain ⟨xs, rfl⟩ := List.getLast?_eq_some_iff.mp hc
    rw [rel_concat, ← List.cons_append, ← List.append_assoc]
    exact List.getLast?_concat

theorem get_writeManifest {p : Path} (hp : p ≠ [MANIFEST]) : (writeManifest H ROOT root T).2.get p = T.get p := by
  by_cases hdir : T.isDir [MANIFEST] = false
  · rw [writeManifest, dif_pos hdir]
    cases encodeUtf8 (manifestText H ROOT root T) with
    | none => exact get_write_ne isName_manifest hdir hp
    | some b => exact get_write_ne isName_manifest hdir hp
  · rw [writeManifest, dif_neg hdir]

/-! ## Samples -/

def digit (n : Nat) : CodePoint := ofChar (Nat.digitChar n)

def hexByte (b : UInt8) : Str := [digit (b.toNat / 16), digit (b.toNat % 16)]

/-- The digest of the empty file, and a code for the other files. -/
def sampleDigest : Bytes → Str
  | [] => lit "e3b0c44298fc1c149afbf4c8996fb92427ae41e4649b934ca495991b7852b855"
  | b :: bs => digit 0 :: (b :: bs).flatMap hexByte

theorem digit_spec : ∀ n < 16, digit n ∈ hexDigits ∧ ∀ m < 16, digit n = digit m → n = m := by decide +kernel

theorem hexByte_flatMap_injective : ∀ bs bs' : Bytes, bs.flatMap hexByte = bs'.flatMap hexByte → bs = bs' := by
  intro bs
  induction bs with
  | nil =>
    intro bs' h
    cases bs' with
    | nil => rfl
    | cons b bs' => cases h
  | cons b bs ih =>
    intro bs' h
    cases bs' with
    | nil => cases h
    | cons b' bs' =>
      obtain ⟨hhigh, h⟩ := List.cons.inj h
      obtain ⟨hlow, h⟩ := List.cons.inj h
      have hb := b.toNat_lt
      have hb' := b'.toNat_lt
      have hdiv := (digit_spec _ (by omega)).2 _ (by omega) hhigh
      have hmod := (digit_spec _ (by omega)).2 _ (by omega) hlow
      have hbyte : b = b' := UInt8.toNat_inj.mp (by omega)
      rw [hbyte, ih bs' h]

theorem sampleDigest_injective : Function.Injective sampleDigest := by
  intro bs bs' h
  cases bs with
  | nil =>
    cases bs' with
    | nil => rfl
    | cons b bs' => exact absurd (List.cons.inj h).1 (by decide +kernel)
  | cons b bs =>
    cases bs' with
    | nil => exact absurd (List.cons.inj h).1 (by decide +kernel)
    | cons b' bs' => exact hexByte_flatMap_injective _ _ (List.cons.inj h).2

theorem sampleDigest_hex (bs : Bytes) : sampleDigest bs ≠ [] ∧ ∀ c ∈ sampleDigest bs, c ∈ hexDigits := by
  cases bs with
  | nil =>
    have h : ((sampleDigest []).all fun c => hexDigits.contains c) = true := by decide +kernel
    exact ⟨by decide, fun c hc => by simpa using List.all_eq_true.mp h c hc⟩
  | cons b bs =>
    refine ⟨List.cons_ne_nil _ _, ?_⟩
    intro c hc
    cases List.mem_cons.mp hc with
    | inl hc => exact hc ▸ (digit_spec 0 (by decide)).1
    | inr hc =>
      obtain ⟨b', -, hc⟩ := List.mem_flatMap.mp hc
      have hb := b'.toNat_lt
      simp only [hexByte, List.mem_cons, List.not_mem_nil, or_false] at hc
      cases hc with
      | inl hc => exact hc ▸ (digit_spec _ (by omega)).1
      | inr hc => exact hc ▸ (digit_spec _ (by omega)).1

def sampleHash : Sha256 where
  hexdigest := sampleDigest
  injective := sampleDigest_injective
  hex := sampleDigest_hex

def sampleROOT : List Str := [lit "/", lit "srv", lit "llama.cpp-stack"]

/-- A checkout inside a directory that is called `.git`. -/
def gitROOT : List Str := [lit "/", lit ".git"]

def openaiOpenapi : Str := lit "openai-openapi"

def readme : FileTree where
  files := [([lit "README.md"], [])]
  nodup := by decide
  named := by decide +kernel
  apart := by decide +kernel

/-- The directory with the manifest that is written for another one. -/
def signed (ROOT : List Str) (T T' : FileTree) (h : T'.isDir [MANIFEST] = false) : FileTree :=
  T'.write MANIFEST isName_manifest h (((writeManifest sampleHash ROOT openaiOpenapi T).2.get [MANIFEST]).getD [])

def cachePath : Path := [lit "__pycache__", lit "gen.pyc"]

def nestedPath : Path := [lit "spec", MANIFEST]

def withFile (p : Path) : List (Path × Bytes) := [([lit "README.md"], []), (p, [])]

def cached : FileTree where
  files := withFile cachePath
  nodup := by decide
  named := by decide +kernel
  apart := by decide +kernel

def nested : FileTree where
  files := withFile nestedPath
  nodup := by decide
  named := by decide +kernel
  apart := by decide +kernel

/-- A file whose name ends in a space. -/
def spaced : FileTree where
  files := [([lit "notes "], [])]
  nodup := by decide
  named := by decide +kernel
  apart := by decide +kernel

theorem get_signed (hdir : T.isDir [MANIFEST] = false) (h : T'.isDir [MANIFEST] = false) :
    (signed ROOT T T' h).get [MANIFEST] = (writeManifest sampleHash ROOT openaiOpenapi T).2.get [MANIFEST] := by
  rw [signed, get_write, writeManifest, dif_pos hdir]
  cases encodeUtf8 (manifestText sampleHash ROOT openaiOpenapi T) with
  | none => simp only [get_write, Option.getD_some]
  | some b => simp only [get_write, Option.getD_some]

theorem plainPath_of_names {p : Path} (h : (p.all fun name => (name.all fun c => !isSurrogate c && !isLineBreak c) &&
    name.getLast?.all fun c => !isSpace c) = true) : PlainPath p := by
  simp only [List.all_eq_true, Bool.and_eq_true, Bool.not_eq_true'] at h
  refine ⟨fun name hname c hc => (h name hname).1 c hc, fun name hname c hc => ?_⟩
  have hlast := (h name (List.mem_of_getLast? hname)).2
  rw [Option.mem_def.mp hc] at hlast
  simpa using hlast

theorem plainPath_readme {p : Path} {content : Bytes} (hc : readme.get p = some content) : PlainPath p := by
  obtain rfl : p = [lit "README.md"] := congrArg Prod.fst (List.mem_singleton.mp (get_eq_some_iff.mp hc))
  exact plainPath_of_names (by decide +kernel)

/-! ## Accepted directories -/

/-- The manifest of a directory is accepted for exactly the directories with the same files. Not looked at are
manifests, at any depth, and what is called or lies below `.git` or `__pycache__`. -/
theorem checkManifest_accepts (H : Sha256) {ROOT : List Str} (hROOT : ∀ part ∈ ROOT, part ∉ ignoredParts) {root : Str}
    (hroot : root ∈ SNAPSHOTS) {T T' : FileTree} (hdir : T.isDir [MANIFEST] = false)
    (hplain : ∀ p content, T.get p = some content → Counts p → PlainPath p)
    (hmanifest : T'.get [MANIFEST] = (writeManifest H ROOT root T).2.get [MANIFEST]) :
    (writeManifest H ROOT root T).1 = .ok () ∧
      (checkManifest H ROOT root T' = .ok () ↔ ∀ p, Counts p → T.get p = T'.get p) := by
  have hcounts : ∀ p, isSnapshotFile ROOT root p = true ↔ Counts p := fun p => isSnapshotFile_iff hROOT hroot
  have hsnapshot : ∀ p content, T.get p = some content → isSnapshotFile ROOT root p = true → PlainPath p :=
    fun p content hc hp => hplain p content hc ((hcounts p).mp hp)
  refine ⟨(writeManifest_describes hroot hdir hsnapshot).1, ?_⟩
  rw [checkManifest_iff_same hroot hdir hsnapshot hmanifest]
  constructor
  · exact fun h p hp => h p ((hcounts p).mpr hp)
  · exact fun h p hp => h p ((hcounts p).mp hp)

/-- A license, a document, and the file of a schema. -/
def vendored : FileTree where
  files := [([lit "LICENSE"], []), ([lit "docs", lit "how to.md"], [1]), ([lit "spec", lit "openapi.yaml"], [2, 3])]
  nodup := by decide
  named := by decide +kernel
  apart := by decide +kernel

/-- One byte of the schema is another one. -/
def edited : FileTree where
  files := [([lit "LICENSE"], []), ([lit "docs", lit "how to.md"], [1]), ([lit "spec", lit "openapi.yaml"], [2, 4])]
  nodup := by decide
  named := by decide +kernel
  apart := by decide +kernel

theorem plainPath_vendored {p : Path} {content : Bytes} (hc : vendored.get p = some content) : PlainPath p := by
  have hmem := get_eq_some_iff.mp hc
  simp only [vendored, List.mem_cons, List.not_mem_nil, or_false, Prod.mk.injEq] at hmem
  rcases hmem with ⟨rfl, -⟩ | ⟨rfl, -⟩ | ⟨rfl, -⟩ <;> exact plainPath_of_names (by decide +kernel)

/-- The unchanged directory is accepted, and the edited one is not. -/
theorem checkManifest_accepts_vendored :
    (writeManifest sampleHash sampleROOT openaiOpenapi vendored).1 = .ok () ∧
      checkManifest sampleHash sampleROOT openaiOpenapi
        (signed sampleROOT vendored vendored (by decide +kernel)) = .ok () ∧
      checkManifest sampleHash sampleROOT openaiOpenapi
        (signed sampleROOT vendored edited (by decide +kernel)) ≠ .ok () := by
  have haccepts : ∀ (T' : FileTree) (h : T'.isDir [MANIFEST] = false),
      (writeManifest sampleHash sampleROOT openaiOpenapi vendored).1 = .ok () ∧
        (checkManifest sampleHash sampleROOT openaiOpenapi (signed sampleROOT vendored T' h) = .ok () ↔
          ∀ p, Counts p → vendored.get p = (signed sampleROOT vendored T' h).get p) := fun T' h =>
    checkManifest_accepts sampleHash (by decide) (by decide) (by decide) (fun _ _ hc _ => plainPath_vendored hc)
      (get_signed (by decide) h)
  refine ⟨(haccepts vendored (by decide +kernel)).1, (haccepts vendored (by decide +kernel)).2.mpr fun p hp => ?_,
    fun h => ?_⟩
  · have hne : p ≠ [MANIFEST] := by
      rintro rfl
      exact hp.1 rfl
    exact (get_write_ne isName_manifest _ hne).symm
  · have hcounts : Counts [lit "spec", lit "openapi.yaml"] := ⟨by decide, by decide⟩
    have hget := (haccepts edited (by decide +kernel)).2.mp h _ hcounts
    rw [signed, get_write_ne isName_manifest _ (by decide)] at hget
    exact absurd hget (by decide)

/-- A cache file and a manifest below the root are not looked at, nothing is below a directory called `.git`, and a name
that ends in a space is not found again. -/
theorem checkManifest_misses :
    (checkManifest sampleHash sampleROOT openaiOpenapi (signed sampleROOT readme cached (by decide +kernel)) = .ok () ∧
      readme.get cachePath ≠ (signed sampleROOT readme cached (by decide +kernel)).get cachePath) ∧
    (checkManifest sampleHash sampleROOT openaiOpenapi (signed sampleROOT readme nested (by decide +kernel)) = .ok () ∧
      readme.get nestedPath ≠ (signed sampleROOT readme nested (by decide +kernel)).get nestedPath) ∧
    (checkManifest sampleHash gitROOT openaiOpenapi (signed gitROOT readme spaced (by decide +kernel)) = .ok () ∧
      readme.get [lit "notes "] ≠ (signed gitROOT readme spaced (by decide +kernel)).get [lit "notes "]) ∧
    checkManifest sampleHash sampleROOT openaiOpenapi (writeManifest sampleHash sampleROOT openaiOpenapi spaced).2 ≠
      .ok () := by
  have hextra : ∀ {ROOT : List Str} {T' : FileTree} (h : T'.isDir [MANIFEST] = false),
      (∀ p, isSnapshotFile ROOT openaiOpenapi p = true → readme.get p = T'.get p) →
        checkManifest sampleHash ROOT openaiOpenapi (signed ROOT readme T' h) = .ok () := by
    intro ROOT T' h hsame
    rw [checkManifest_iff_same (by decide) (by decide) (fun _ _ hc _ => plainPath_readme hc) (get_signed (by decide) h)]
    intro p hp
    have hne : p ≠ [MANIFEST] := by
      rintro rfl
      simp [isSnapshotFile] at hp
    rw [hsame p hp, signed, get_write_ne isName_manifest h hne]
  have hwith : ∀ {T' : FileTree} {q : Path}, T'.files = withFile q → ∀ p, p ≠ q → readme.get p = T'.get p := by
    intro T' q hT p hp
    rw [FileTree.get, FileTree.get, hT, readme, withFile, List.lookup_cons, List.lookup_cons, List.lookup_cons,
      beq_eq_false_iff_ne.mpr hp]
  refine ⟨⟨?_, ?_⟩, ⟨?_, ?_⟩, ⟨?_, ?_⟩, ?_⟩
  · apply hextra
    intro p hp
    have hne : p ≠ cachePath := by
      rintro rfl
      exact absurd hp (by decide +kernel)
    exact hwith rfl p hne
  · rw [signed, get_write_ne isName_manifest _ (by decide)]
    decide
  · apply hextra
    intro p hp
    have hne : p ≠ nestedPath := by
      rintro rfl
      exact absurd hp (by decide +kernel)
    exact hwith rfl p hne
  · rw [signed, get_write_ne isName_manifest _ (by decide)]
    decide
  · apply hextra
    intro p hp
    have hgit : lit ".git" ∈ ignoredParts := List.mem_cons_self
    simp [isSnapshotFile, gitROOT, hgit] at hp
  · rw [signed, get_write_ne isName_manifest _ (by decide)]
    decide
  · intro h
    have hget : (writeManifest sampleHash sampleROOT openaiOpenapi spaced).2.get [lit "notes "] = some [] := by
      rw [get_writeManifest (by decide)]
      decide
    have hplain := plain_of_accepted (by decide) h hget (by decide +kernel)
    exact absurd (hplain.2 (ofChar ' ') (by decide +kernel)) (by decide)

/-- An unchanged directory is accepted exactly when lines can hold the paths of its files. -/
theorem checkManifest_unchanged_iff (hROOT : ∀ part ∈ ROOT, part ∉ ignoredParts) (hroot : root ∈ SNAPSHOTS) :
    checkManifest H ROOT root (writeManifest H ROOT root T).2 = .ok () ↔
      T.isDir [MANIFEST] = false ∧ ∀ p content, T.get p = some content → Counts p → PlainPath p := by
  have hne : ∀ p, Counts p → p ≠ [MANIFEST] := by
    rintro p hp rfl
    exact hp.1 rfl
  constructor
  · intro h
    constructor
    · obtain ⟨b, -, hb, -⟩ := readManifest_of_ok h
      by_contra hdir
      rw [writeManifest, dif_neg hdir] at hb
      exact hdir (isDir_of_get hb)
    · intro p content hc hp
      have hget : (writeManifest H ROOT root T).2.get p = some content := (get_writeManifest (hne p hp)).trans hc
      exact plainPath_of_rel (plain_of_accepted hroot h hget ((isSnapshotFile_iff hROOT hroot).mpr hp))
  · rintro ⟨hdir, hplain⟩
    have hcounts : ∀ p, isSnapshotFile ROOT root p = true → Counts p := fun p => (isSnapshotFile_iff hROOT hroot).mp
    rw [checkManifest_iff_same hroot hdir (fun p content hc hp => hplain p content hc (hcounts p hp)) rfl]
    exact fun p hp => (get_writeManifest (hne p (hcounts p hp))).symm

end VendoredIntegrity
