/-!
# Support code

The C that every unit contains: values, environments, built-in methods, dispatch and the start and
end of a program.
-/

namespace StackCode.CUnit

/-- The lines of the support code. -/
def preludeLines : List String := [
    "/* ========================================================================",
    " * cinder runtime",
    " *",
    " * Included verbatim into every generated unit, after the unit's tables:",
    " *   RT_MAX_CALL_DEPTH, RT_ECHO_RESULT, RT_SYM_COUNT, RT_STR_COUNT,",
    " *   rt_sym_names[], rt_str_data[], rt_str_lens[]",
    " *",
    " * Mirrors the interpreter: same builtins, same dispatch order, same",
    " * exception messages.",
    " * ======================================================================== */",
    "",
    "#include <stdarg.h>",
    "#include <stdint.h>",
    "#include <stdio.h>",
    "#include <stdlib.h>",
    "#include <string.h>",
    "",
    "/* ------------------------------------------------------------------------",
    " * Values",
    " * ------------------------------------------------------------------------ */",
    "",
    "typedef enum \x7b",
    "    RT_NIL = 0, /* calloc'd storage reads as nil */",
    "    RT_BOOL,",
    "    RT_INT,",
    "    RT_STR,",
    "    RT_SYM,",
    "    RT_MAIN,",
    "    RT_PROC",
    "\x7d Tag;",
    "",
    "typedef struct Closure Closure;",
    "",
    "typedef struct RtString \x7b",
    "    size_t len;",
    "    const char *ptr;",
    "\x7d RtString;",
    "",
    "typedef struct Value \x7b",
    "    Tag tag;",
    "    union \x7b",
    "        int b;",
    "        int64_t i;",
    "        const RtString *s;",
    "        int sym;",
    "        Closure *proc;",
    "    \x7d as;",
    "\x7d Value;",
    "",
    "typedef struct Env \x7b",
    "    struct Env *parent;",
    "    int size;",
    "    Value vars[];",
    "\x7d Env;",
    "",
    "typedef Value (*MethodFn)(Value self, int argc, Value *args, Closure *blk);",
    "typedef Value (*BlockFn)(Closure *closure, int argc, Value *args);",
    "",
    "struct Closure \x7b",
    "    BlockFn fn;",
    "    Env *env;",
    "    Value self;",
    "    Closure *blk;",
    "\x7d;",
    "",
    "typedef enum \x7b RT_PUBLIC, RT_PRIVATE \x7d Visibility;",
    "",
    "static RtString rt_strings[RT_STR_COUNT + 1];",
    "static Value rt_globals[RT_SYM_COUNT + 1];",
    "static MethodFn rt_methods[RT_SYM_COUNT + 1];",
    "static int rt_method_private[RT_SYM_COUNT + 1];",
    "static Visibility rt_visibility = RT_PRIVATE;",
    "static int rt_depth = 0;",
    "",
    "static Value rt_nil(void) \x7b Value v; v.tag = RT_NIL; v.as.i = 0; return v; \x7d",
    "static Value rt_bool(int b) \x7b Value v; v.tag = RT_BOOL; v.as.b = b != 0; return v; \x7d",
    "static Value rt_int(int64_t i) \x7b Value v; v.tag = RT_INT; v.as.i = i; return v; \x7d",
    "static Value rt_sym(int sym) \x7b Value v; v.tag = RT_SYM; v.as.sym = sym; return v; \x7d",
    "static Value rt_str(int k) \x7b Value v; v.tag = RT_STR; v.as.s = &rt_strings[k]; return v; \x7d",
    "static Value rt_main_object(void) \x7b Value v; v.tag = RT_MAIN; v.as.i = 0; return v; \x7d",
    "static Value rt_proc(Closure *c) \x7b Value v; v.tag = RT_PROC; v.as.proc = c; return v; \x7d",
    "",
    "static int rt_truthy(Value v) \x7b",
    "    return !(v.tag == RT_NIL || (v.tag == RT_BOOL && !v.as.b));",
    "\x7d",
    "",
    "static void *rt_alloc(size_t size) \x7b",
    "    void *p = calloc(1, size);",
    "    if (!p) \x7b",
    "        fflush(stdout);",
    "        fprintf(stderr, \"out of memory\\n\");",
    "        exit(1);",
    "    \x7d",
    "    return p;",
    "\x7d",
    "",
    "static Value rt_string_new(const char *ptr, size_t len) \x7b",
    "    RtString *s = rt_alloc(sizeof(RtString));",
    "    char *buf = rt_alloc(len + 1);",
    "    memcpy(buf, ptr, len);",
    "    s->len = len;",
    "    s->ptr = buf;",
    "    Value v;",
    "    v.tag = RT_STR;",
    "    v.as.s = s;",
    "    return v;",
    "\x7d",
    "",
    "/* ------------------------------------------------------------------------",
    " * Names and errors",
    " * ------------------------------------------------------------------------ */",
    "",
    "static const char *rt_class_name(Value v) \x7b",
    "    switch (v.tag) \x7b",
    "    case RT_NIL: return \"NilClass\";",
    "    case RT_BOOL: return v.as.b ? \"TrueClass\" : \"FalseClass\";",
    "    case RT_INT: return \"Integer\";",
    "    case RT_STR: return \"String\";",
    "    case RT_SYM: return \"Symbol\";",
    "    case RT_MAIN: return \"Object\";",
    "    case RT_PROC: return \"Proc\";",
    "    \x7d",
    "    return \"Object\";",
    "\x7d",
    "",
    "static const char *rt_coercion_name(Value v) \x7b",
    "    if (v.tag == RT_NIL) return \"nil\";",
    "    if (v.tag == RT_BOOL) return v.as.b ? \"true\" : \"false\";",
    "    return rt_class_name(v);",
    "\x7d",
    "",
    "static void rt_describe(Value v, char *buf, size_t n) \x7b",
    "    switch (v.tag) \x7b",
    "    case RT_NIL: snprintf(buf, n, \"nil\"); break;",
    "    case RT_BOOL: snprintf(buf, n, \"%s\", v.as.b ? \"true\" : \"false\"); break;",
    "    case RT_MAIN: snprintf(buf, n, \"main:Object\"); break;",
    "    default: snprintf(buf, n, \"an instance of %s\", rt_class_name(v)); break;",
    "    \x7d",
    "\x7d",
    "",
    "static void rt_raise(const char *class_name, const char *fmt, ...) \x7b",
    "    char message[512];",
    "    va_list ap;",
    "    va_start(ap, fmt);",
    "    vsnprintf(message, sizeof message, fmt, ap);",
    "    va_end(ap);",
    "    fflush(stdout);",
    "    fprintf(stderr, \"%s (%s)\\n\", message, class_name);",
    "    exit(1);",
    "\x7d",
    "",
    "static void rt_wrong_arity(int given, int expected) \x7b",
    "    rt_raise(\"ArgumentError\", \"wrong number of arguments (given %d, expected %d)\", given, expected);",
    "\x7d",
    "",
    "static void rt_check_args(int argc, int expected) \x7b",
    "    if (argc != expected) rt_wrong_arity(argc, expected);",
    "\x7d",
    "",
    "static Value rt_arg(int argc, Value *args, int i) \x7b",
    "    return i < argc ? args[i] : rt_nil();",
    "\x7d",
    "",
    "static void rt_exit(void) \x7b",
    "    fflush(stdout);",
    "    exit(0);",
    "\x7d",
    "",
    "/* ------------------------------------------------------------------------",
    " * Environments and closures",
    " * ------------------------------------------------------------------------ */",
    "",
    "static Env *rt_env_new(Env *parent, int size) \x7b",
    "    Env *env = rt_alloc(sizeof(Env) + sizeof(Value) * (size_t)size);",
    "    env->parent = parent;",
    "    env->size = size;",
    "    return env;",
    "\x7d",
    "",
    "static Env *rt_env_at(Env *env, int depth) \x7b",
    "    while (depth-- > 0) env = env->parent;",
    "    return env;",
    "\x7d",
    "",
    "static Closure *rt_closure_new(BlockFn fn, Env *env, Value self, Closure *blk) \x7b",
    "    Closure *c = rt_alloc(sizeof(Closure));",
    "    c->fn = fn;",
    "    c->env = env;",
    "    c->self = self;",
    "    c->blk = blk;",
    "    return c;",
    "\x7d",
    "",
    "/* ------------------------------------------------------------------------",
    " * Rendering",
    " * ------------------------------------------------------------------------ */",
    "",
    "/* to_s */",
    "static void rt_write(FILE *out, Value v) \x7b",
    "    switch (v.tag) \x7b",
    "    case RT_NIL: break;",
    "    case RT_BOOL: fputs(v.as.b ? \"true\" : \"false\", out); break;",
    "    case RT_INT: fprintf(out, \"%lld\", (long long)v.as.i); break;",
    "    case RT_STR: fwrite(v.as.s->ptr, 1, v.as.s->len, out); break;",
    "    case RT_SYM: fputs(rt_sym_names[v.as.sym], out); break;",
    "    case RT_MAIN: fputs(\"main\", out); break;",
    "    case RT_PROC: fputs(\"#<Proc>\", out); break;",
    "    \x7d",
    "\x7d",
    "",
    "static void rt_inspect(FILE *out, Value v) \x7b",
    "    size_t i;",
    "    switch (v.tag) \x7b",
    "    case RT_NIL: fputs(\"nil\", out); break;",
    "    case RT_SYM: fputc(':', out); fputs(rt_sym_names[v.as.sym], out); break;",
    "    case RT_STR:",
    "        fputc('\"', out);",
    "        for (i = 0; i < v.as.s->len; i++) \x7b",
    "            char c = v.as.s->ptr[i];",
    "            switch (c) \x7b",
    "            case '\"': fputs(\"\\\\\\\"\", out); break;",
    "            case '\\\\': fputs(\"\\\\\\\\\", out); break;",
    "            case '\\n': fputs(\"\\\\n\", out); break;",
    "            case '\\t': fputs(\"\\\\t\", out); break;",
    "            default: fputc(c, out); break;",
    "            \x7d",
    "        \x7d",
    "        fputc('\"', out);",
    "        break;",
    "    default: rt_write(out, v); break;",
    "    \x7d",
    "\x7d",
    "",
    "static Value rt_to_s(Value v) \x7b",
    "    char buf[32];",
    "    switch (v.tag) \x7b",
    "    case RT_STR: return v;",
    "    case RT_NIL: return rt_string_new(\"\", 0);",
    "    case RT_BOOL: return v.as.b ? rt_string_new(\"true\", 4) : rt_string_new(\"false\", 5);",
    "    case RT_INT:",
    "        snprintf(buf, sizeof buf, \"%lld\", (long long)v.as.i);",
    "        return rt_string_new(buf, strlen(buf));",
    "    case RT_SYM: return rt_string_new(rt_sym_names[v.as.sym], strlen(rt_sym_names[v.as.sym]));",
    "    case RT_MAIN: return rt_string_new(\"main\", 4);",
    "    case RT_PROC: return rt_string_new(\"#<Proc>\", 7);",
    "    \x7d",
    "    return rt_string_new(\"\", 0);",
    "\x7d",
    "",
    "static void rt_puts(int argc, Value *args) \x7b",
    "    int i;",
    "    if (argc == 0) fputc('\\n', stdout);",
    "    for (i = 0; i < argc; i++) \x7b",
    "        Value text = rt_to_s(args[i]);",
    "        rt_write(stdout, text);",
    "        if (text.as.s->len == 0 || text.as.s->ptr[text.as.s->len - 1] != '\\n') fputc('\\n', stdout);",
    "    \x7d",
    "\x7d",
    "",
    "static void rt_print(int argc, Value *args) \x7b",
    "    int i;",
    "    for (i = 0; i < argc; i++) rt_write(stdout, args[i]);",
    "\x7d",
    "",
    "/* ------------------------------------------------------------------------",
    " * Builtins",
    " * ------------------------------------------------------------------------ */",
    "",
    "static int rt_equal(Value a, Value b) \x7b",
    "    if (a.tag != b.tag) return 0;",
    "    switch (a.tag) \x7b",
    "    case RT_NIL: case RT_MAIN: return 1;",
    "    case RT_BOOL: return a.as.b == b.as.b;",
    "    case RT_INT: return a.as.i == b.as.i;",
    "    case RT_STR: return a.as.s->len == b.as.s->len && memcmp(a.as.s->ptr, b.as.s->ptr, a.as.s->len) == 0;",
    "    case RT_SYM: return a.as.sym == b.as.sym;",
    "    case RT_PROC: return a.as.proc == b.as.proc;",
    "    \x7d",
    "    return 0;",
    "\x7d",
    "",
    "static int64_t rt_floor_div(int64_t a, int64_t b) \x7b",
    "    int64_t q;",
    "    if (b == -1) return (int64_t)(0 - (uint64_t)a);",
    "    q = a / b;",
    "    if (a % b != 0 && ((a < 0) != (b < 0))) q -= 1;",
    "    return q;",
    "\x7d",
    "",
    "static int64_t rt_floor_mod(int64_t a, int64_t b) \x7b",
    "    int64_t r;",
    "    if (b == -1) return 0;",
    "    r = a % b;",
    "    if (r != 0 && ((r < 0) != (b < 0))) r += b;",
    "    return r;",
    "\x7d",
    "",
    "static int rt_integer_method(int64_t a, const char *name, int argc, Value *args, Value *out) \x7b",
    "    int arithmetic = !strcmp(name, \"+\") || !strcmp(name, \"-\") || !strcmp(name, \"*\")",
    "        || !strcmp(name, \"/\") || !strcmp(name, \"%\");",
    "    int comparison = !strcmp(name, \"<\") || !strcmp(name, \"<=\") || !strcmp(name, \">\")",
    "        || !strcmp(name, \">=\");",
    "    int64_t b;",
    "    if (!arithmetic && !comparison) return 0;",
    "    if (argc != 1) rt_wrong_arity(argc, 1);",
    "    if (args[0].tag != RT_INT) \x7b",
    "        if (arithmetic)",
    "            rt_raise(\"TypeError\", \"%s can't be coerced into Integer\", rt_coercion_name(args[0]));",
    "        rt_raise(\"ArgumentError\", \"comparison of Integer with %s failed\", rt_coercion_name(args[0]));",
    "    \x7d",
    "    b = args[0].as.i;",
    "    switch (name[0]) \x7b",
    "    case '+': *out = rt_int((int64_t)((uint64_t)a + (uint64_t)b)); break;",
    "    case '-': *out = rt_int((int64_t)((uint64_t)a - (uint64_t)b)); break;",
    "    case '*': *out = rt_int((int64_t)((uint64_t)a * (uint64_t)b)); break;",
    "    case '/':",
    "        if (b == 0) rt_raise(\"ZeroDivisionError\", \"divided by 0\");",
    "        *out = rt_int(rt_floor_div(a, b));",
    "        break;",
    "    case '%':",
    "        if (b == 0) rt_raise(\"ZeroDivisionError\", \"divided by 0\");",
    "        *out = rt_int(rt_floor_mod(a, b));",
    "        break;",
    "    case '<': *out = rt_bool(name[1] == '=' ? a <= b : a < b); break;",
    "    case '>': *out = rt_bool(name[1] == '=' ? a >= b : a > b); break;",
    "    \x7d",
    "    return 1;",
    "\x7d",
    "",
    "static int rt_string_method(const RtString *s, const char *name, int argc, Value *args, Value *out) \x7b",
    "    size_t i, count = 0;",
    "    if (!strcmp(name, \"+\")) \x7b",
    "        char *buf;",
    "        const RtString *t;",
    "        if (argc != 1) rt_wrong_arity(argc, 1);",
    "        if (args[0].tag != RT_STR)",
    "            rt_raise(\"TypeError\", \"no implicit conversion of %s into String\", rt_coercion_name(args[0]));",
    "        t = args[0].as.s;",
    "        buf = rt_alloc(s->len + t->len + 1);",
    "        memcpy(buf, s->ptr, s->len);",
    "        memcpy(buf + s->len, t->ptr, t->len);",
    "        *out = rt_string_new(buf, s->len + t->len);",
    "        free(buf);",
    "        return 1;",
    "    \x7d",
    "    if (!strcmp(name, \"length\") || !strcmp(name, \"size\")) \x7b",
    "        if (argc != 0) rt_wrong_arity(argc, 0);",
    "        for (i = 0; i < s->len; i++)",
    "            if (((unsigned char)s->ptr[i] & 0xC0) != 0x80) count++;",
    "        *out = rt_int((int64_t)count);",
    "        return 1;",
    "    \x7d",
    "    return 0;",
    "\x7d",
    "",
    "static int rt_object_method(Value recv, const char *name, int argc, Value *args, Value *out) \x7b",
    "    if (!strcmp(name, \"==\")) \x7b",
    "        if (argc != 1) rt_wrong_arity(argc, 1);",
    "        *out = rt_bool(rt_equal(recv, args[0]));",
    "    \x7d else if (!strcmp(name, \"!=\")) \x7b",
    "        if (argc != 1) rt_wrong_arity(argc, 1);",
    "        *out = rt_bool(!rt_equal(recv, args[0]));",
    "    \x7d else if (!strcmp(name, \"!\")) \x7b",
    "        if (argc != 0) rt_wrong_arity(argc, 0);",
    "        *out = rt_bool(!rt_truthy(recv));",
    "    \x7d else if (!strcmp(name, \"nil?\")) \x7b",
    "        if (argc != 0) rt_wrong_arity(argc, 0);",
    "        *out = rt_bool(recv.tag == RT_NIL);",
    "    \x7d else if (!strcmp(name, \"to_s\")) \x7b",
    "        if (argc != 0) rt_wrong_arity(argc, 0);",
    "        *out = rt_to_s(recv);",
    "    \x7d else \x7b",
    "        return 0;",
    "    \x7d",
    "    return 1;",
    "\x7d",
    "",
    "static int rt_builtin(Value recv, const char *name, int argc, Value *args, Value *out) \x7b",
    "    if (recv.tag == RT_INT && rt_integer_method(recv.as.i, name, argc, args, out)) return 1;",
    "    if (recv.tag == RT_STR && rt_string_method(recv.as.s, name, argc, args, out)) return 1;",
    "    return rt_object_method(recv, name, argc, args, out);",
    "\x7d",
    "",
    "/* ------------------------------------------------------------------------",
    " * Dispatch",
    " * ------------------------------------------------------------------------ */",
    "",
    "static void rt_define_method(int sym, MethodFn fn) \x7b",
    "    rt_methods[sym] = fn;",
    "    rt_method_private[sym] = rt_visibility == RT_PRIVATE;",
    "\x7d",
    "",
    "static void rt_enter(void) \x7b",
    "    if (rt_depth >= RT_MAX_CALL_DEPTH) rt_raise(\"SystemStackError\", \"stack level too deep\");",
    "    rt_depth++;",
    "\x7d",
    "",
    "static Value rt_send(Value recv, int explicit_recv, int sym, int argc, Value *args, Value block) \x7b",
    "    const char *name = rt_sym_names[sym];",
    "    char described[128];",
    "    Value result;",
    "",
    "    if (rt_builtin(recv, name, argc, args, &result)) return result;",
    "",
    "    if (rt_methods[sym]) \x7b",
    "        if (rt_method_private[sym] && explicit_recv) \x7b",
    "            rt_describe(recv, described, sizeof described);",
    "            rt_raise(\"NoMethodError\", \"private method '%s' called for %s\", name, described);",
    "        \x7d",
    "        rt_enter();",
    "        result = rt_methods[sym](recv, argc, args, block.tag == RT_PROC ? block.as.proc : NULL);",
    "        rt_depth--;",
    "        return result;",
    "    \x7d",
    "",
    "    if (!explicit_recv) \x7b",
    "        if (!strcmp(name, \"puts\")) \x7b",
    "            rt_puts(argc, args);",
    "            return rt_nil();",
    "        \x7d",
    "        if (!strcmp(name, \"print\")) \x7b",
    "            rt_print(argc, args);",
    "            return rt_nil();",
    "        \x7d",
    "    \x7d",
    "",
    "    rt_describe(recv, described, sizeof described);",
    "    rt_raise(\"NoMethodError\", \"undefined method '%s' for %s\", name, described);",
    "    return rt_nil();",
    "\x7d",
    "",
    "static Value rt_yield(Closure *blk, int argc, Value *args) \x7b",
    "    Value result;",
    "    if (!blk) rt_raise(\"LocalJumpError\", \"no block given (yield)\");",
    "    rt_enter();",
    "    result = blk->fn(blk, argc, args);",
    "    rt_depth--;",
    "    return result;",
    "\x7d",
    "",
    "/* ------------------------------------------------------------------------",
    " * Program entry",
    " * ------------------------------------------------------------------------ */",
    "",
    "static void rt_init(void) \x7b",
    "    int k;",
    "    for (k = 0; k < RT_STR_COUNT; k++) \x7b",
    "        rt_strings[k].ptr = rt_str_data[k];",
    "        rt_strings[k].len = rt_str_lens[k];",
    "    \x7d",
    "\x7d",
    "",
    "static void rt_finish(Value result) \x7b",
    "    if (RT_ECHO_RESULT) \x7b",
    "        fputs(\"=> \", stdout);",
    "        rt_inspect(stdout, result);",
    "        fputc('\\n', stdout);",
    "    \x7d",
    "    fflush(stdout);",
    "\x7d"]

/-- The support code. -/
def prelude : String := String.join (preludeLines.map (· ++ "\n"))

end StackCode.CUnit
