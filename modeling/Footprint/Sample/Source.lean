/-!
# Sample source

The C text of a sample project of any size.  It declares types and globals of
all shapes, has helper functions that use them through pointers, and then a
chain of functions, each of which uses every helper and calls the next.  The last
one calls a helper instead.
-/

namespace Footprint.Sample

/-- The types, globals and external functions. -/
def declarations : List String :=
  ["typedef unsigned int u32;",
   "typedef int i32;",
   "typedef double f64;",
   "enum Color \x7b RED, GREEN, BLUE \x7d;",
   "typedef enum Color Color;",
   "typedef struct Inner \x7b u32 id; f64 v[3]; \x7d Inner;",
   "typedef struct Outer \x7b Inner items[4]; u32 flags[8]; int *pp; \x7d Outer;",
   "typedef struct Node \x7b Outer pkt; f64 hist[2][3]; \x7d Node;",
   "typedef struct \x7b int x; int y; \x7d Anon;",
   "union Mix \x7b int i; float f; \x7d;",
   "typedef struct Wrap \x7b int *ptr; \x7d Wrap;",
   "Outer gOut[6];",
   "Node gNodes[4];",
   "int gBuf[32];",
   "int gA, gB;",
   "int *gP = &gA;",
   "int *gQ;",
   "extern int *gP;",
   "int *gP = &gB;",
   "int gState;",
   "int *gPA = gP;",
   "int *gPW = (&gA);",
   "u32 *gPMem = &gOut[0].items[0].id;",
   "int *gPNull = 0;",
   "void ext_rw(int *dst, const int *src);",
   "void ext_pp(int **dst, int *src);"]

/-- The helper functions. -/
def helpers : List String :=
  ["void util_arr(int *buf, i32 idx) \x7b",
   "    buf[idx] = buf[idx] + 10;",
   "    buf[0] = buf[idx] + buf[1];",
   "    buf[2] += (int)buf[3];",
   "\x7d",
   "",
   "void util_struct(Outer *o, i32 i, i32 j) \x7b",
   "    o[i].flags[j] = o[i].flags[j] + 1;",
   "    o[i].items[j].v[0] = o[0].items[i].v[2];",
   "    o->pp = &gA;",
   "\x7d",
   "",
   "void util_ptr(int **pp, int *q) \x7b",
   "    *pp = q;",
   "    int v = **pp;",
   "\x7d",
   "",
   "void util_wrap(Wrap *w, int *n) \x7b",
   "    w->ptr = n;",
   "\x7d",
   "",
   "void util_state(void) \x7b",
   "    gState = gState + 1;",
   "\x7d",
   "",
   "void util_misc(int *p, int **pp, Outer *o) \x7b",
   "    int arr2[4];",
   "    int *alias = (int*)p;",
   "    int v = *(int*)p;",
   "    util_arr(*pp, 0);",
   "    util_arr(o->pp, 0);",
   "    util_arr(&arr2[0], 0);",
   "    util_arr(arr2, 0);",
   "    ext_rw(p ? p : alias, &gA);",
   "    (*p)++;",
   "    gA = p[gA + 1];",
   "    (gBuf[1]) = 3;",
   "\x7d",
   "",
   "void util_idx(int *q) \x7b",
   "    q[3] = q[0] + q[1];",
   "    util_arr(q, 1);",
   "\x7d",
   "",
   "void util_deref(int *d) \x7b",
   "    gA = *d;",
   "    *d = gB;",
   "\x7d",
   "",
   "void util_val(int x) \x7b",
   "    gA = x;",
   "\x7d",
   "",
   "void util_parr(void) \x7b",
   "    int *parr[3];",
   "    parr[0] = &gA;",
   "    *parr[0] = 1;",
   "    gQ = parr[1];",
   "\x7d",
   ""]

/-- A function of the chain up to its last call. -/
def linkStart : List String :=
  ["    int loc = gA;",
   "    int *lp = &gBuf[0];",
   "    Wrap w;",
   "    Node nloc;",
   "    gOut[k].items[0].id = gOut[k].items[0].id + 1;",
   "    gNodes[1].hist[k][2] += 1.0;",
   "    gNodes[1].pkt.flags[k] = gNodes[1].pkt.items[0].id;",
   "    gBuf[k]++;",
   "    --gBuf[3];",
   "    gBuf[0] = (int)(*lp) + gBuf[k] + loc;",
   "    gBuf[1] |= gBuf[2];",
   "    *p = gA + gB;",
   "    *lp += 1;",
   "    gP = &gB;",
   "    gQ = gP;",
   "    gQ = (int*)lp;",
   "    util_struct(&gOut[0], k, k);",
   "    util_ptr(&gQ, &gBuf[0]);",
   "    util_wrap(&w, &gB);",
   "    ext_rw(&gBuf[0], &gBuf[1]);",
   "    ext_rw(gBuf, p);",
   "    ext_pp(&gQ, &gA);",
   "    util_arr((int*)p, k);",
   "    util_arr(nloc.pkt.pp, k);",
   "    util_misc(p, &gQ, &gOut[0]);",
   "    util_idx(gBuf);",
   "    util_idx(p);",
   "    int *np;",
   "    util_deref(np);",
   "    util_val(*gP);",
   "    util_val(gBuf[k]);",
   "    util_val(gOut[0].flags[k]);",
   "    util_parr();",
   "    gQ = (int*)&gA;",
   "    gP++;",
   "    util_state();"]

/-- A function of the chain after its last call. -/
def linkEnd : List String :=
  ["    if (gA == 0) \x7b gB = -gA; \x7d",
   "\x7d"]

/-- The name of a function of the chain. -/
def linkName (i : Nat) : String := "fn" ++ toString i

/-- The function at place `i` of a chain of `n`. -/
def link (n i : Nat) : List String :=
  let next := if i + 1 < n then linkName (i + 1) else "util_arr"
  ("void " ++ linkName i ++ "(int *p, i32 k) \x7b") ::
    (linkStart ++ ["    " ++ next ++ "(p, k);"] ++ linkEnd)

/-- The source text with a chain of `n` functions. -/
def sourceText (n : Nat) : String :=
  String.join ((declarations ++ helpers ++ (List.range n).flatMap (link n)).map fun line =>
    line ++ "\n")

end Footprint.Sample
