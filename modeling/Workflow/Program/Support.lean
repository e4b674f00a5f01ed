/-!
# Support code of a program

Every program starts with the same imports and the same support code: the
errors it may raise, the layered context that branches write to, and the two
ways of running branches side by side. Nothing of the workflow goes into these
lines.
-/

namespace Workflow.Program

/-- The modules that every program imports. -/
def imports : List String :=
  [
    "import importlib",
    "import os",
    "import threading",
    "from concurrent.futures import FIRST_COMPLETED, ThreadPoolExecutor, wait"
  ]

/-- Errors, the context and the runners of branches. -/
def support : List String :=
  [
    "class WorkflowError(Exception):",
    "    \"\"\"A step failed; carries the partial context and the original inputs.\"\"\"",
    "",
    "    def __init__(self, original, context, inputs):",
    "        super().__init__(f\"workflow failed: \x7boriginal!r\x7d\")",
    "        self.original = original",
    "        self.context = context",
    "        self.inputs = inputs",
    "",
    "",
    "class MissingInputError(Exception):",
    "    def __init__(self, name):",
    "        super().__init__(f\"missing required input '\x7bname\x7d'\")",
    "        self.name = name",
    "",
    "",
    "class ConfigurationError(Exception):",
    "    pass",
    "",
    "",
    "class MissingContextKey(KeyError):",
    "    def __init__(self, name, path=(), cancelled=False):",
    "        key = name if not path else f\"\x7bname\x7d.\x7b'.'.join(str(p) for p in path)\x7d\"",
    "        if cancelled:",
    "            key = f\"\x7bkey\x7d (only bound by a first-to-finish branch that lost the race)\"",
    "        super().__init__(key)",
    "        self.name = name",
    "        self.path = tuple(path)",
    "        self.cancelled = cancelled",
    "",
    "",
    "class _Cancelled(Exception):",
    "    pass",
    "",
    "",
    "class _Context:",
    "    \"\"\"Layered key-value store; forks write to their own overlay.\"\"\"",
    "",
    "    def __init__(self, values=None, parent=None, cancel=None):",
    "        self._values = dict(values or \x7b\x7d)",
    "        self._parent = parent",
    "        self._cancel = cancel",
    "        self._lost = set()",
    "",
    "    def _lookup(self, name):",
    "        ctx = self",
    "        while ctx is not None:",
    "            if name in ctx._values:",
    "                return ctx._values[name]",
    "            ctx = ctx._parent",
    "        raise MissingContextKey(name, cancelled=self._was_lost(name))",
    "",
    "    def _was_lost(self, name):",
    "        ctx = self",
    "        while ctx is not None:",
    "            if name in ctx._lost:",
    "                return True",
    "            ctx = ctx._parent",
    "        return False",
    "",
    "    def has(self, name):",
    "        try:",
    "            self._lookup(name)",
    "        except MissingContextKey:",
    "            return False",
    "        return True",
    "",
    "    def get(self, name, *path):",
    "        value = self._lookup(name)",
    "        for step in path:",
    "            if isinstance(value, dict) and step not in value and str(step) in value:",
    "                step = str(step)",
    "            try:",
    "                value = value[step]",
    "            except (KeyError, IndexError, TypeError) as exc:",
    "                raise MissingContextKey(name, path) from exc",
    "        return value",
    "",
    "    def set(self, name, value):",
    "        if self._cancel is not None and self._cancel.is_set():",
    "            raise _Cancelled(name)",
    "        self._values[name] = value",
    "        self._lost.discard(name)",
    "",
    "    def fork(self, cancel=None):",
    "        return _Context(parent=self, cancel=cancel or self._cancel)",
    "",
    "    def commit(self, child):",
    "        for name, value in child._values.items():",
    "            self.set(name, value)",
    "",
    "    def snapshot(self):",
    "        merged = self._parent.snapshot() if self._parent is not None else \x7b\x7d",
    "        merged.update(self._values)",
    "        return merged",
    "",
    "",
    "def _run_all(ctx, units):",
    "    forks = [ctx.fork() for _ in units]",
    "    with ThreadPoolExecutor(max_workers=len(units)) as pool:",
    "        futures = [pool.submit(unit, fork) for unit, fork in zip(units, forks)]",
    "        for future in futures:",
    "            future.result()",
    "    for fork in forks:",
    "        ctx.commit(fork)",
    "",
    "",
    "def _run_first(ctx, units, may_bind=()):",
    "    cancel = threading.Event()",
    "    forks = [ctx.fork(cancel) for _ in units]",
    "    pool = ThreadPoolExecutor(max_workers=len(units))",
    "    try:",
    "        futures = [pool.submit(unit, fork) for unit, fork in zip(units, forks)]",
    "        done, _ = wait(futures, return_when=FIRST_COMPLETED)",
    "        winner = min(done, key=futures.index)",
    "        cancel.set()",
    "        winner.result()",
    "        ctx.commit(forks[futures.index(winner)])",
    "        ctx._lost.update(name for name in may_bind if not ctx.has(name))",
    "    finally:",
    "        pool.shutdown(wait=False, cancel_futures=True)",
    "",
    "",
    "def _delegate(module, function, kwargs):",
    "    target = getattr(importlib.import_module(module), function)",
    "    return target(**kwargs)",
    "",
    "",
    "def _text(*parts):",
    "    return \"\".join(str(part) for part in parts)"
  ]

end Workflow.Program
